import Mathlib.Logic.Relation
import Mathlib.Order.WellFounded
import Mathlib.Tactic.Common

/-!
# Labelled transition systems

A system is a set of initial states and a labelled step relation; a thread
scheduler is the label, so a statement about every run of the system is a
statement about every interleaving.  Runs carry their trace, oldest label first,
so that what a run has done so far can be read off without ghost state.

## Main definitions

* `Lts` — initial states and steps.
* `Lts.Run s tr s'` — the steps `tr` lead from `s` to `s'`.
* `Lts.Exec tr s`, `Lts.Reachable s` — runs that start in an initial state.
* `Lts.Simulation` — a forward simulation, silent steps included.

## Main results

* `Lts.Exec.induction`, `Lts.Reachable.invariant` — the invariant rules.
* `Lts.Simulation.exec` — a simulation maps every run to a run.
* `Lts.Run.length_add_le`, `Lts.exists_run_to_final` — runs end, and where they end.
* `Lts.exists_skip_of_infinite` — what runs do that do not end.
-/

/-- A labelled transition system: its initial states and its steps. -/
structure Lts (σ ℓ : Type*) where
  /-- The states a run may start in. -/
  Init : σ → Prop
  /-- `Step s l s'` says the system can move from `s` to `s'` performing `l`. -/
  Step : σ → ℓ → σ → Prop

namespace Lts

variable {σ ℓ : Type*}

/-- `M.Run s tr s'` says the steps `tr`, oldest first, lead from `s` to `s'`. -/
inductive Run (M : Lts σ ℓ) (s : σ) : List ℓ → σ → Prop
  | nil : Run M s [] s
  | snoc {tr : List ℓ} {s' s'' : σ} {l : ℓ} :
      Run M s tr s' → M.Step s' l s'' → Run M s (tr ++ [l]) s''

/-- `M.Exec tr s` says a run from an initial state has trace `tr` and ends in `s`. -/
def Exec (M : Lts σ ℓ) (tr : List ℓ) (s : σ) : Prop := ∃ s₀, M.Init s₀ ∧ M.Run s₀ tr s

/-- A state that some run from an initial state ends in. -/
def Reachable (M : Lts σ ℓ) (s : σ) : Prop := ∃ tr, M.Exec tr s

/-- Some step leaves the state. -/
def CanStep (M : Lts σ ℓ) (s : σ) : Prop := ∃ l s', M.Step s l s'

variable {M : Lts σ ℓ}

/-! ### Runs -/

theorem Run.single {s s' : σ} {l : ℓ} (h : M.Step s l s') : M.Run s [l] s' := by
  have hr : M.Run s ([] ++ [l]) s' := Run.nil.snoc h
  exact hr

theorem Run.append {s s' s'' : σ} {tr tr' : List ℓ} (h : M.Run s tr s')
    (h' : M.Run s' tr' s'') : M.Run s (tr ++ tr') s'' := by
  induction h' with
  | nil => simpa using h
  | snoc _ hs ih =>
    rw [← List.append_assoc]
    exact Run.snoc ih hs

theorem Exec.init {s : σ} (h : M.Init s) : M.Exec [] s := ⟨s, h, Run.nil⟩

theorem Exec.snoc {tr : List ℓ} {s s' : σ} {l : ℓ} (h : M.Exec tr s) (hs : M.Step s l s') :
    M.Exec (tr ++ [l]) s' := by
  obtain ⟨s₀, h₀, hr⟩ := h
  exact ⟨s₀, h₀, hr.snoc hs⟩

theorem Exec.append {tr tr' : List ℓ} {s s' : σ} (h : M.Exec tr s) (hr : M.Run s tr' s') :
    M.Exec (tr ++ tr') s' := by
  obtain ⟨s₀, h₀, h⟩ := h
  exact ⟨s₀, h₀, h.append hr⟩

theorem Reachable.init {s : σ} (h : M.Init s) : M.Reachable s := ⟨[], Exec.init h⟩

theorem Reachable.step {s s' : σ} {l : ℓ} (h : M.Reachable s) (hs : M.Step s l s') :
    M.Reachable s' := by
  obtain ⟨tr, h⟩ := h
  exact ⟨tr ++ [l], h.snoc hs⟩

theorem Reachable.run {s s' : σ} {tr : List ℓ} (h : M.Reachable s) (hr : M.Run s tr s') :
    M.Reachable s' := by
  obtain ⟨tr₀, h⟩ := h
  exact ⟨tr₀ ++ tr, h.append hr⟩

/-! ### The invariant rules -/

/-- What holds of the empty trace in every initial state, and of a run one step
longer whenever it holds of the run, holds of every run. -/
theorem Exec.induction {P : List ℓ → σ → Prop} (init : ∀ s, M.Init s → P [] s)
    (step : ∀ tr s l s', M.Exec tr s → P tr s → M.Step s l s' → P (tr ++ [l]) s')
    {tr : List ℓ} {s : σ} (h : M.Exec tr s) : P tr s := by
  obtain ⟨s₀, h₀, hr⟩ := h
  induction hr with
  | nil => exact init _ h₀
  | snoc hr hs ih => exact step _ _ _ _ ⟨s₀, h₀, hr⟩ ih hs

/-- An inductive invariant holds in every reachable state. -/
theorem Reachable.invariant {I : σ → Prop} (init : ∀ s, M.Init s → I s)
    (step : ∀ s l s', I s → M.Step s l s' → I s') {s : σ} (h : M.Reachable s) : I s := by
  obtain ⟨tr, h⟩ := h
  exact h.induction (P := fun _ s => I s) init fun _ s l s' _ => step s l s'

/-- What a step preserves, a run preserves. -/
theorem Run.preserves {I : σ → Prop} (step : ∀ s l s', I s → M.Step s l s' → I s')
    {s s' : σ} {tr : List ℓ} (hr : M.Run s tr s') (h : I s) : I s' := by
  induction hr with
  | nil => exact h
  | snoc _ hs ih => exact step _ _ _ ih hs

/-- A run to where something holds that has not held before gets there by one of its steps. -/
theorem Run.exists_enter {P : σ → Prop} {s s' : σ} {tr : List ℓ} (hr : M.Run s tr s') (hs : ¬ P s)
    (hs' : P s') : ∃ tr₁ s₁ l s₂, M.Run s tr₁ s₁ ∧ M.Step s₁ l s₂ ∧ ¬ P s₁ ∧ P s₂ := by
  induction hr with
  | nil => exact absurd hs' hs
  | @snoc tr s₁ s₂ l hr hstep ih =>
    by_cases h₁ : P s₁
    · exact ih h₁
    · exact ⟨tr, s₁, l, s₂, hr, hstep, h₁, hs'⟩

/-! ### Simulation -/

/-- A forward simulation of `M` by `A`.  A step of `M` with no visible label is
matched by `A` standing still. -/
structure Simulation {σ' ℓ' : Type*} (M : Lts σ ℓ) (A : Lts σ' ℓ') where
  /-- The simulation relation. -/
  Rel : σ → σ' → Prop
  /-- The label `A` sees of a step of `M`, if any. -/
  visible : ℓ → Option ℓ'
  init : ∀ s, M.Init s → ∃ a, A.Init a ∧ Rel s a
  silent : ∀ s l s' a, M.Step s l s' → visible l = none → Rel s a → Rel s' a
  step : ∀ s l s' a l', M.Step s l s' → visible l = some l' → Rel s a →
    ∃ a', A.Step a l' a' ∧ Rel s' a'

/-- A simulation maps every run of `M` to the run of `A` on the visible labels. -/
theorem Simulation.exec {σ' ℓ' : Type*} {A : Lts σ' ℓ'} (S : Simulation M A)
    {tr : List ℓ} {s : σ} (h : M.Exec tr s) :
    ∃ a, A.Exec (tr.filterMap S.visible) a ∧ S.Rel s a := by
  refine h.induction (P := fun tr s => ∃ a, A.Exec (tr.filterMap S.visible) a ∧ S.Rel s a) ?_ ?_
  · intro s hs
    obtain ⟨a, ha, hrel⟩ := S.init s hs
    exact ⟨a, Exec.init ha, hrel⟩
  · rintro tr s l s' - ⟨a, ha, hrel⟩ hs
    rw [List.filterMap_append]
    cases hv : S.visible l with
    | none =>
      refine ⟨a, ?_, S.silent s l s' a hs hv hrel⟩
      simpa [List.filterMap, hv] using ha
    | some l' =>
      obtain ⟨a', hstep, hrel'⟩ := S.step s l s' a l' hs hv hrel
      refine ⟨a', ?_, hrel'⟩
      simpa [List.filterMap, hv] using ha.snoc hstep

/-! ### Termination -/

/-- A measure that every step lowers bounds the length of every run. -/
theorem Run.length_add_le (μ : σ → ℕ) (hμ : ∀ s l s', M.Step s l s' → μ s' < μ s)
    {s s' : σ} {tr : List ℓ} (hr : M.Run s tr s') : tr.length + μ s' ≤ μ s := by
  induction hr with
  | nil => simp
  | snoc _ hs ih =>
    have hlt := hμ _ _ _ hs
    simp only [List.length_append, List.length_singleton]
    omega

/-- When every step lowers a measure and only final states are stuck, every
reachable state can be run to a final one. -/
theorem exists_run_to_final {Final : σ → Prop} (μ : σ → ℕ)
    (hμ : ∀ s l s', M.Step s l s' → μ s' < μ s)
    (hprog : ∀ s, M.Reachable s → ¬ Final s → M.CanStep s) {s : σ} (h : M.Reachable s) :
    ∃ tr s', M.Run s tr s' ∧ Final s' := by
  -- Strong induction on the measure of the state.
  induction hn : μ s using Nat.strong_induction_on generalizing s with
  | _ n ih =>
    by_cases hf : Final s
    · exact ⟨[], s, Run.nil, hf⟩
    · obtain ⟨l, s₁, hs⟩ := hprog s h hf
      obtain ⟨tr, s₂, hr, hf₂⟩ := ih (μ s₁) (hn ▸ hμ _ _ _ hs) (h.step hs) rfl
      exact ⟨[l] ++ tr, s₂, (Run.single hs).append hr, hf₂⟩

/-- When no run goes on for ever and only final states are stuck, every reachable state can
be run to a final one. -/
theorem exists_run_to_final_of_wellFounded {Final : σ → Prop}
    (hwf : WellFounded fun s' s => ∃ l, M.Step s l s')
    (hprog : ∀ s, M.Reachable s → ¬ Final s → M.CanStep s) {s : σ} (h : M.Reachable s) :
    ∃ tr s', M.Run s tr s' ∧ Final s' := by
  induction s using hwf.induction with
  | _ s ih =>
    by_cases hf : Final s
    · exact ⟨[], s, Run.nil, hf⟩
    · obtain ⟨l, s₁, hs⟩ := hprog s h hf
      obtain ⟨tr, s₂, hr, hf₂⟩ := ih s₁ ⟨l, hs⟩ (h.step hs)
      exact ⟨[l] ++ tr, s₂, (Run.single hs).append hr, hf₂⟩

/-- The system without some of its steps, from the states it can reach. -/
def without (M : Lts σ ℓ) (skip : σ → ℓ → σ → Prop) : Lts σ ℓ where
  Init := M.Reachable
  Step s l s' := M.Step s l s' ∧ ¬ skip s l s'

variable {skip : σ → ℓ → σ → Prop}

theorem run_of_without {s s' : σ} {tr : List ℓ} (h : (M.without skip).Run s tr s') :
    M.Run s tr s' := by
  induction h with
  | nil => exact .nil
  | snoc _ hs ih => exact ih.snoc hs.1

theorem reachable_of_without {s : σ} (h : (M.without skip).Reachable s) : M.Reachable s := by
  obtain ⟨tr, s₀, h₀, hr⟩ := h
  exact h₀.run (run_of_without hr)

/-- A run that goes on for ever takes some steps again and again, if without them it comes to
an end. -/
theorem exists_skip_of_infinite
    (hwf : WellFounded fun s' s => ∃ l, (M.without skip).Step s l s') {run : ℕ → σ} {label : ℕ → ℓ}
    (hrun : ∀ n, M.Step (run n) (label n) (run (n + 1))) (n : ℕ) :
    ∃ m, n ≤ m ∧ skip (run m) (label m) (run (m + 1)) := by
  by_contra hnone
  have hawake : ∀ m, n ≤ m → ¬ skip (run m) (label m) (run (m + 1)) :=
    fun m hm hskip => hnone ⟨m, hm, hskip⟩
  refine (wellFounded_iff_isEmpty_descending_chain.mp hwf).false ⟨fun m => run (n + m), ?_⟩
  intro m
  exact ⟨label (n + m), hrun (n + m), hawake _ (Nat.le_add_right n m)⟩

end Lts
