import Mathlib.Data.Fin.VecNotation
import Tsag.PipelineProgress

/-!
# What becomes of the paths

With every thread created and every worker started, each path on the work queue
is parsed once, by one worker, and the merge thread gets one vector from each.
Of the three ways a start-up can fail, two cost no path; a worker without a
vector takes paths from the queue and frees them.

## Main results

* `pipeline_conserves_paths` — the paths, the vectors and the queues of a healthy execution.
* `startUp_failure_loses_no_path_iff` — which start-up failures cost a path.
-/

namespace Tsag

variable {cfg : Config}

/-- Each path put has been handed to `parse_file_lines` once, by one worker, and
nothing else has been handed to it. -/
structure PipelineState.ParsedOnce (s : PipelineState cfg) : Prop where
  once : ∀ k < cfg.paths.length,
    ∃ i, (s.parsed i).count k = 1 ∧ ∀ j, j ≠ i → k ∉ s.parsed j
  only : ∀ i, ∀ k ∈ s.parsed i, k < cfg.paths.length

theorem PipelineState.count_parsedPaths (s : PipelineState cfg) (k : ℕ) :
    s.parsedPaths.count k = tally (fun l : List ℕ => l.count k) s.parsed := by
  rw [PipelineState.parsedPaths, tally, Multiset.count_sum']
  simp [tally]

theorem PipelineState.parsedOnce_of_parsedPaths {s : PipelineState cfg}
    (h : s.parsedPaths = Multiset.range cfg.paths.length) : s.ParsedOnce where
  once := by
    intro k hk
    have hcount : s.parsedPaths.count k = 1 := by
      rw [h]
      exact Multiset.count_eq_one_of_mem (Multiset.nodup_range _) (Multiset.mem_range.mpr hk)
    rw [s.count_parsedPaths] at hcount
    obtain ⟨i, hi, hrest⟩ := tally_eq_one hcount
    exact ⟨i, hi, fun j hj => List.count_eq_zero.mp (hrest j hj)⟩
  only := by
    intro i k hk
    have hmem : k ∈ s.parsedPaths := Multiset.mem_sum.mpr ⟨i, Finset.mem_univ i, hk⟩
    rwa [h, Multiset.mem_range] at hmem

theorem PipelineInv.batches_nodup {s : PipelineState cfg} (h : PipelineInv s) : s.batches.Nodup :=
  (List.nodup_append.mp h.collection.nodup).2.1

/-- A worker that started up frees no path unparsed. -/
theorem PipelineInv.parsedOnce_of_exited {s : PipelineState cfg} (h : PipelineInv s)
    (hcfg : cfg.IsHealthy) (hjobs : 1 ≤ cfg.jobs) (hexit : s.Exited) : s.ParsedOnce := by
  have htakes : ∃ i, (cfg.startUp i).TakesPaths :=
    ⟨⟨0, hjobs⟩, by rw [hcfg.startUp]; trivial⟩
  have hconserved := h.conserved_of_exited hcfg.mergeCreateFails htakes hexit
  have hdropped : s.dropped = [] := by
    by_contra hne
    obtain ⟨i, hfails⟩ := h.delivery.dropped hne
    cases (hcfg.startUp i).symm.trans hfails
  rw [hdropped, Multiset.coe_nil, zero_add] at hconserved
  exact PipelineState.parsedOnce_of_parsedPaths hconserved

/-- **A healthy execution conserves its paths.**  When `main` has returned, each
path has been parsed once, by one worker, and the merge thread holds one vector
from each worker; at no time does it hold more than its array has room for, or
is the merge queue found full, or are all threads stuck. -/
theorem pipeline_conserves_paths {N : ℕ} (hN : 1 ≤ N) (hmax : N ≤ intMax) (paths : List CStr)
    {s : PipelineState (Config.healthy N paths)}
    (h : (pipelineLts (Config.healthy N paths)).Reachable s) :
    (s.Exited → s.ParsedOnce ∧ s.batches.Nodup ∧ ∀ i, i ∈ s.batches) ∧
      (s.batches.length : ℤ) ≤ (Config.healthy N paths).mergeN ∧
      (∀ i, s.worker i = .put → ∃ q, ioQueuePut s.outQueue i = some q) ∧
      (¬ s.Exited → (pipelineLts (Config.healthy N paths)).CanStep s) := by
  have hinv := pipelineInv_reachable hN (fun _ => rfl) h
  have htakes : ∃ i, ((Config.healthy N paths).startUp i).TakesPaths := ⟨⟨0, hN⟩, trivial⟩
  refine ⟨fun hexit => ⟨hinv.parsedOnce_of_exited (Config.isHealthy_healthy N paths) hN hexit,
    hinv.batches_nodup,
    fun i => (hinv.mem_batches_of_exited rfl hexit i).mpr rfl⟩, ?_, fun i => hinv.out_put, ?_⟩
  · have hmergeN : (Config.healthy N paths).mergeN = N := intOfLong_eq hmax
    rw [hmergeN]
    exact_mod_cast hinv.length_batches_le
  · exact hinv.canStep (fun _ => rfl) (Or.inl htakes)

theorem pipeline_conserves_paths_two_workers :
    ∃ s : PipelineState (Config.healthy 2 [CStr.lit "a.c", CStr.lit "a.c"]),
      (pipelineLts _).Reachable s ∧ s.Exited ∧ s.ParsedOnce ∧ ∀ i, i ∈ s.batches := by
  have hinit : (pipelineLts (Config.healthy 2 [CStr.lit "a.c", CStr.lit "a.c"])).Reachable
      (pipelineInit _) := Lts.Reachable.init rfl
  obtain ⟨⟨tr, s, hr, hexit⟩, -⟩ :=
    pipeline_runs_to_exit (by decide) (fun _ => rfl) (Or.inr (by decide)) hinit
  have hreach := hinit.run hr
  have hfinal := pipeline_conserves_paths (by decide) (by decide) _ hreach
  exact ⟨s, hreach, hexit, (hfinal.1 hexit).1, (hfinal.1 hexit).2.2⟩

/-! ### Start-up failures -/

/-- Every execution comes to an end, and when it has, the paths parsed are exactly
the paths put. -/
def LosesNoPath (cfg : Config) : Prop :=
  ∀ s, (pipelineLts cfg).Reachable s →
    (s.Exited → s.parsedPaths = Multiset.range cfg.paths.length) ∧
    (¬ s.Exited → (pipelineLts cfg).CanStep s) ∧
    ∃ bound, ∀ tr s', (pipelineLts cfg).Run s tr s' → tr.length ≤ bound

/-- A path freed stays freed. -/
theorem dropped_ne_nil_step (s : PipelineState cfg) (t : Tid cfg.jobs) (s' : PipelineState cfg)
    (h : s.dropped ≠ []) (hs : (pipelineLts cfg).Step s t s') : s'.dropped ≠ [] := by
  cases hs with
  | main hs => cases hs <;> exact h
  | worker _ hs =>
    cases hs with
    | drain _ _ => simp
    | start _ | get _ _ | getNull _ _ | noExtension _ _ | langCacheGet _ _ | scanned _ | put _ _
    | drainNull _ _ => exact h
  | merge _ hs => cases hs <;> exact h

section StartUpFailure

theorem losesNoPath_of_no_vecFails (hcreate : ∀ i, cfg.createFails i = false)
    (hmerge : cfg.mergeCreateFails = false) (hok : ∃ i, cfg.startUp i = .ok)
    (hnone : (∀ i, cfg.startUp i ≠ .vecFails) ∨ cfg.paths = []) : LosesNoPath cfg := by
  obtain ⟨i, hi⟩ := hok
  have hjobs : 1 ≤ cfg.jobs := Nat.one_le_of_lt i.isLt
  have htakes : ∃ i, (cfg.startUp i).TakesPaths := ⟨i, by rw [hi]; trivial⟩
  intro s h
  have hinv := pipelineInv_reachable hjobs hcreate h
  refine ⟨?_, hinv.canStep hcreate (Or.inl htakes), pipelineRank s,
    (pipeline_runs_to_exit hjobs hcreate (Or.inl htakes) h).2⟩
  intro hexit
  have hconserved := hinv.conserved_of_exited hmerge htakes hexit
  rcases hnone with hnone | hpaths
  · have hdropped : s.dropped = [] := by
      by_contra hne
      obtain ⟨j, hfails⟩ := hinv.delivery.dropped hne
      exact hnone j hfails
    simpa [hdropped] using hconserved
  · have hzero : Multiset.range cfg.paths.length = 0 := by simp [hpaths]
    have hle : s.parsedPaths ≤ Multiset.range cfg.paths.length :=
      hconserved ▸ Multiset.le_add_left _ _
    rw [hzero] at hle ⊢
    exact Multiset.le_zero.mp hle

/-- A worker without a vector can be the first to take from the work queue. -/
theorem exists_reachable_dropped (hcreate : ∀ i, cfg.createFails i = false)
    (hmerge : cfg.mergeCreateFails = false) {j : Fin cfg.jobs} (hj : cfg.startUp j = .vecFails)
    (hpaths : cfg.paths ≠ []) : ∃ s, (pipelineLts cfg).Reachable s ∧ s.dropped ≠ [] := by
  have hlen : 0 < cfg.paths.length := List.length_pos_iff.mpr hpaths
  have h₀ := reachable_createdState le_rfl fun i _ => hcreate i
  have h₁ := h₀.step (.main (MainStep.created rfl))
  have h₂ := h₁.step (.main (MainStep.createMerge rfl hmerge))
  have h₃ := h₂.step (.main (MainStep.put rfl hlen rfl))
  have hstart : (createdState cfg cfg.jobs).worker j = .start := if_pos j.isLt
  have h₄ := h₃.step (.worker (i := j) (by rintro ⟨rc, ⟨⟩⟩) (WorkerStep.start hstart))
  have hdrain : Function.update (createdState cfg cfg.jobs).worker j (cfg.startUp j).next j
      = .drain := by
    rw [Function.update_self, hj]
    rfl
  have h₅ := h₄.step (.worker (i := j) (by rintro ⟨rc, ⟨⟩⟩) (WorkerStep.drain hdrain rfl))
  exact ⟨_, h₅, by simp⟩

/-- It then frees a path that nobody parses. -/
theorem not_losesNoPath_of_vecFails (hcreate : ∀ i, cfg.createFails i = false)
    (hmerge : cfg.mergeCreateFails = false) {j : Fin cfg.jobs} (hj : cfg.startUp j = .vecFails)
    (hpaths : cfg.paths ≠ []) : ¬ LosesNoPath cfg := by
  intro hloses
  have hjobs : 1 ≤ cfg.jobs := Nat.one_le_of_lt j.isLt
  have htakes : ∃ i, (cfg.startUp i).TakesPaths := ⟨j, by rw [hj]; trivial⟩
  obtain ⟨s, hreach, hdropped⟩ := exists_reachable_dropped hcreate hmerge hj hpaths
  obtain ⟨⟨tr, s', hr, hexit⟩, -⟩ :=
    pipeline_runs_to_exit hjobs hcreate (Or.inl htakes) hreach
  have hreach' := hreach.run hr
  have hconserved :=
    (pipelineInv_reachable hjobs hcreate hreach').conserved_of_exited hmerge htakes hexit
  rw [(hloses s' hreach').1 hexit] at hconserved
  have hdropped' : s'.dropped ≠ [] :=
    hr.preserves (I := fun s => s.dropped ≠ []) dropped_ne_nil_step hdropped
  exact hdropped' (by simpa using hconserved)

end StartUpFailure

section StartUps

variable {jobs : ℕ} {paths : List CStr} {startUp : Fin jobs → StartUp}

/-- **Which start-up failures cost a path**: those of `line_vec_new`, as soon as
there is a path. -/
theorem startUp_failure_loses_no_path_iff (hok : ∃ i, startUp i = .ok) :
    LosesNoPath (Config.ofStartUp paths startUp)
      ↔ (∀ i, startUp i ≠ .vecFails) ∨ paths = [] := by
  constructor
  · intro hloses
    by_contra hneither
    rw [not_or, not_forall] at hneither
    obtain ⟨⟨j, hj⟩, hpaths⟩ := hneither
    exact not_losesNoPath_of_vecFails (fun _ => rfl) rfl (not_not.mp hj) hpaths hloses
  · intro hnone
    have hcreate : ∀ i, (Config.ofStartUp paths startUp).createFails i = false := fun _ => rfl
    exact losesNoPath_of_no_vecFails hcreate rfl hok hnone

end StartUps

theorem startUp_failure_loses_no_path_of_two :
    LosesNoPath (Config.ofStartUp [CStr.lit "a.c"] ![.ok, .cursorFails]) :=
  (startUp_failure_loses_no_path_iff ⟨0, rfl⟩).mpr (Or.inl (by decide))

/-- Two workers, one path, and the second worker's `line_vec_new` fails. -/
theorem line_vec_failure_loses_a_path :
    (∃ i, (![.ok, .vecFails] : Fin 2 → StartUp) i = .ok) ∧
      ¬ LosesNoPath (Config.ofStartUp [CStr.lit "a.c"] ![.ok, .vecFails]) :=
  ⟨⟨0, rfl⟩, not_losesNoPath_of_vecFails (fun _ => rfl) rfl (j := (1 : Fin 2)) rfl
    (List.cons_ne_nil _ _)⟩

end Tsag
