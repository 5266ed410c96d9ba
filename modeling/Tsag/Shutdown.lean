import Mathlib.Data.Fin.VecNotation
import Tsag.PipelineInv

/-!
# What `main` frees, and who still uses it

`main` frees the queues and the language cache on three ways out.  On two of
them it joins the workers first; on the way out of a failed `pthread_create` it
does not, and a worker started before the failure can be on its way into a queue
that is gone.

## Main definitions

* `NoUseAfterFree` — no worker or merge step operates on what `main` has freed.
* `Idle` — what holds when no worker started before the failure takes paths.

## Main results

* `noUseAfterFree_of_created`, `noUseAfterFree_of_idle` — the safe executions.
* `not_noUseAfterFree` — the unsafe ones.
* `noUseAfterFree_iff` — exactly which executions are safe.
-/

namespace Tsag

variable {cfg : Config}

/-- In every interleaving, no step of a worker or of the merge thread operates on
a queue or cache that `main` has freed. -/
def NoUseAfterFree (cfg : Config) : Prop :=
  ∀ s, (pipelineLts cfg).Reachable s → ∀ t s' o, (pipelineLts cfg).Step s t s' →
    uses s t = some o → s.freed o = false

/-! ### Every worker is created -/

theorem MainPc.joined_of_freeing {pc : MainPc} (jobs : ℕ) (h : pc.freeing = true) :
    pc.joined jobs = jobs ∧ (pc.mergeJoined = true ∨ pc.mergeCreated = false) := by
  cases pc <;> simp_all [MainPc.freeing, MainPc.joined, MainPc.mergeJoined, MainPc.mergeCreated,
    em]

/-- Once `main` frees, the other threads are over. -/
theorem Phases.uses_eq_none {s : PipelineState cfg} (h : Phases s.main s)
    (hfreeing : s.main.freeing = true) (t : Tid cfg.jobs) : uses s t = none := by
  obtain ⟨hjoined, hmerge⟩ := MainPc.joined_of_freeing cfg.jobs hfreeing
  cases t with
  | main => rfl
  | worker i =>
    have hdone := h.joined i (hjoined.symm ▸ i.isLt)
    simp [uses, hdone]
  | merge =>
    rcases hmerge with hjoined | hnone
    · simp [uses, h.merge_joined hjoined]
    · simp [uses, h.merge_started.mpr hnone]

theorem noUseAfterFree_of_created (hcreate : ∀ i, cfg.createFails i = false) :
    NoUseAfterFree cfg := by
  intro s hreach t s' o _ huses
  have hp := phases_reachable hcreate hreach
  by_contra hfreed
  rw [Bool.not_eq_false] at hfreed
  rw [hp.uses_eq_none (hp.freed o hfreed)] at huses
  cases huses

/-! ### A worker cannot be created -/

/-- `main` creates the first `k` workers or is on its way out without them. -/
def MainPc.Creating (k : ℕ) : MainPc → Prop
  | .create i => i ≤ k
  | .abortCloseQueue | .abortCloseOut | .freeOut _ | .freeQueue _ | .freeCache _ | .exited _ =>
      True
  | _ => False

/-- The workers started are before worker `k` and have not got to the work queue. -/
def IdleWorkers (k : Fin cfg.jobs) (worker : Fin cfg.jobs → WorkerPc) : Prop :=
  ∀ i, worker i = .notStarted ∨ i < k ∧ (worker i = .start ∨ worker i = .done)

theorem IdleWorkers.update {k i : Fin cfg.jobs} {worker : Fin cfg.jobs → WorkerPc} {x : WorkerPc}
    (h : IdleWorkers k worker) (hi : i < k) (hx : x = .start ∨ x = .done) :
    IdleWorkers k (Function.update worker i x) := by
  intro j
  by_cases hji : j = i
  · subst hji
    rw [Function.update_self]
    exact Or.inr ⟨hi, hx⟩
  · rw [Function.update_of_ne hji]
    exact h j

/-- Where the threads are when worker `k` cannot be created and no worker before
it takes paths. -/
structure Idle (k : Fin cfg.jobs) (s : PipelineState cfg) : Prop where
  main : s.main.Creating k
  merge : s.merge = .notStarted
  worker : IdleWorkers k s.worker

theorem Idle.uses_eq_none {k : Fin cfg.jobs} {s : PipelineState cfg} (h : Idle k s)
    (t : Tid cfg.jobs) : uses s t = none := by
  cases t with
  | main => rfl
  | worker i =>
    rcases h.worker i with hpc | ⟨-, hpc | hpc⟩
    · simp [uses, hpc]
    · simp [uses, hpc]
    · simp [uses, hpc]
  | merge => simp [uses, h.merge]

theorem Idle.main_step {k : Fin cfg.jobs} {s s' : PipelineState cfg}
    (hk : cfg.createFails k = true) (hs : MainStep s s') (h : Idle k s) : Idle k s' := by
  have hmain := h.main
  cases hs with
  | @create i hpc hok =>
    rw [hpc] at hmain
    have hlt : i < k := by
      refine lt_of_le_of_ne hmain ?_
      intro heq
      rw [heq, hk] at hok
      cases hok
    exact ⟨hlt, h.merge, h.worker.update hlt (Or.inl rfl)⟩
  | created hpc =>
    rw [hpc] at hmain
    exact absurd k.isLt (Nat.not_lt.mpr hmain)
  | createFail _ _ | abortCloseQueue _ | abortCloseOut _ | freeOut _ | freeQueue _
  | freeCache _ => exact { h with main := trivial }
  | createMerge hpc _ | createMergeFail hpc _ | put hpc _ _ | enqueued hpc | closeQueue hpc
  | join hpc _ | joined hpc | closeOut hpc | closeOutFail hpc | joinMerge hpc _ =>
    rw [hpc] at hmain
    exact hmain.elim

theorem Idle.worker_step {k i : Fin cfg.jobs} {s s' : PipelineState cfg}
    (hidle : ∀ j < k, ¬ (cfg.startUp j).TakesPaths) (hs : WorkerStep i s s') (h : Idle k s) :
    Idle k s' := by
  have hpoint := h.worker i
  cases hs with
  | start hpc =>
    have hlt : i < k := by
      rcases hpoint with hnew | ⟨hlt, -⟩
      · simp [hpc] at hnew
      · exact hlt
    have hnext : (cfg.startUp i).next = .done := by
      have hnot := hidle i hlt
      cases hu : cfg.startUp i <;> simp_all [StartUp.TakesPaths, StartUp.next]
    exact { h with worker := h.worker.update hlt (Or.inr hnext) }
  | get hpc _ | getNull hpc _ | noExtension hpc _ | langCacheGet hpc _ | scanned hpc
  | put hpc _ | drain hpc _ | drainNull hpc _ => simp [hpc] at hpoint

theorem idle_reachable {k : Fin cfg.jobs} (hk : cfg.createFails k = true)
    (hidle : ∀ j < k, ¬ (cfg.startUp j).TakesPaths) {s : PipelineState cfg}
    (h : (pipelineLts cfg).Reachable s) : Idle k s := by
  apply h.invariant
  · rintro s rfl
    exact ⟨Nat.zero_le _, rfl, fun _ => Or.inl rfl⟩
  · intro s t s' h hs
    cases hs with
    | main hs => exact h.main_step hk hs
    | worker _ hs => exact h.worker_step hidle hs
    | merge _ hs =>
      obtain ⟨-, -, -, -, -, -, -, hstarted, -⟩ := hs.moves
      exact absurd h.merge hstarted

theorem noUseAfterFree_of_idle {k : Fin cfg.jobs} (hk : cfg.createFails k = true)
    (hidle : ∀ j < k, ¬ (cfg.startUp j).TakesPaths) : NoUseAfterFree cfg := by
  intro s hreach t s' o _ huses
  rw [(idle_reachable hk hidle hreach).uses_eq_none] at huses
  cases huses

/-- A worker already started gets to the queue after `main` has freed it. -/
theorem not_noUseAfterFree {k i : Fin cfg.jobs} (hk : cfg.createFails k = true)
    (hfirst : ∀ j < k, cfg.createFails j = false) (hi : i < k)
    (htakes : (cfg.startUp i).TakesPaths) : ¬ NoUseAfterFree cfg := by
  intro hsafe
  -- the earlier workers are created, and none of them has moved
  have h₀ := reachable_createdState (Nat.le_of_lt k.isLt) hfirst
  have h₁ := h₀.step (.main (MainStep.createFail rfl hk))
  have h₂ := h₁.step (.main (MainStep.abortCloseQueue rfl))
  have h₃ := h₂.step (.main (MainStep.abortCloseOut rfl))
  have h₄ := h₃.step (.main (MainStep.freeOut rfl))
  have h₅ := h₄.step (.main (MainStep.freeQueue rfl))
  have hstart : (createdState cfg k).worker i = .start := if_pos hi
  -- `main` has freed the queue before the worker has got anywhere
  have h₆ := h₅.step (.worker (i := i) (by rintro ⟨rc, ⟨⟩⟩) (WorkerStep.start hstart))
  cases hu : cfg.startUp i with
  | ok =>
    have hpc : Function.update (createdState cfg k).worker i (cfg.startUp i).next i = .get := by
      rw [Function.update_self, hu]
      rfl
    have hfreed := hsafe _ h₆ (.worker i) _ .queue
      (.worker (by rintro ⟨rc, ⟨⟩⟩) (WorkerStep.getNull hpc rfl))
      (by simp [uses, hu, StartUp.next])
    cases hfreed
  | vecFails =>
    have hpc : Function.update (createdState cfg k).worker i (cfg.startUp i).next i = .drain := by
      rw [Function.update_self, hu]
      rfl
    have hfreed := hsafe _ h₆ (.worker i) _ .queue
      (.worker (by rintro ⟨rc, ⟨⟩⟩) (WorkerStep.drainNull hpc rfl))
      (by simp [uses, hu, StartUp.next])
    cases hfreed
  | parserFails =>
    rw [hu] at htakes
    exact htakes
  | cursorFails =>
    rw [hu] at htakes
    exact htakes

/-- **Exactly which executions use nothing freed**: those in which no worker
created before the first failing `pthread_create` takes paths. -/
theorem noUseAfterFree_iff : NoUseAfterFree cfg ↔
    ∀ k, cfg.createFails k = true → (∀ j < k, cfg.createFails j = false) →
      ∀ i < k, ¬ (cfg.startUp i).TakesPaths := by
  constructor
  · intro hsafe k hk hfirst i hi htakes
    exact not_noUseAfterFree hk hfirst hi htakes hsafe
  · intro hidle
    by_cases hall : ∀ i, cfg.createFails i = false
    · exact noUseAfterFree_of_created hall
    · -- the first worker that cannot be created
      have hex : ∃ i, cfg.createFails i = true := by simpa using hall
      obtain ⟨k, hk, hmin⟩ := WellFounded.has_min (wellFounded_lt (α := Fin cfg.jobs)) _ hex
      have hfirst : ∀ j < k, cfg.createFails j = false := by
        intro j hj
        by_contra hne
        rw [Bool.not_eq_false] at hne
        exact hmin j hne hj
      exact noUseAfterFree_of_idle hk (hidle k hk hfirst)

/-- Two workers, and `pthread_create` fails for the second. -/
theorem second_create_failure_uses_freed_queue : ¬ NoUseAfterFree
    { jobs := 2
      paths := [CStr.lit "."]
      startUp := fun _ => .ok
      createFails := ![false, true]
      mergeCreateFails := false } :=
  not_noUseAfterFree (k := (1 : Fin 2)) (i := (0 : Fin 2)) rfl (by decide) (by decide) trivial

end Tsag
