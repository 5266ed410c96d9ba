import Mathlib.Data.Fin.VecNotation
import Tsag.PipelineInv

/-!
# The pipeline always comes to an end

A thread that cannot step waits for another one, and the waits never form a
circle: a reachable state in which no thread can step is one in which `main` has
returned.  Every step uses up some of the work that is left, so there is no
infinite run either.

## Main definitions

* `pipelineRank` — the work that is left.
* `NeverStuck` — no reachable state is stuck before `main` has returned.

## Main results

* `PipelineInv.canStep` — some thread can step until `main` has returned.
* `pipelineRank_step` — every step of every thread lowers the rank.
* `pipeline_runs_to_exit` — from every reachable state some run leads to the end.
* `startUp_failure_never_stuck_iff` — which start-up failures can hang the program.
-/

namespace Tsag

variable {cfg : Config}

/-! ### Some thread can step -/

section Progress

variable {s : PipelineState cfg}

/-- A worker that is under way can step unless it waits for a path. -/
theorem PipelineInv.worker_canStep (h : PipelineInv s) {i : Fin cfg.jobs}
    (hstarted : s.worker i ≠ .notStarted) (hdone : s.worker i ≠ .done)
    (hready : s.queue.closed = true ∨ s.queue.items ≠ []) : ∃ s', WorkerStep i s s' := by
  cases hpc : s.worker i with
  | notStarted => exact absurd hpc hstarted
  | start => exact ⟨_, WorkerStep.start hpc⟩
  | get =>
    obtain ⟨r, q, hget⟩ := h.rings.queue_wf.exists_get hready
    cases r with
    | none => exact ⟨_, WorkerStep.getNull hpc hget⟩
    | some k => exact ⟨_, WorkerStep.get hpc hget⟩
  | parse k =>
    by_cases hext : (cfg.paths[k]?).bind findExtension = none
    · exact ⟨_, WorkerStep.noExtension hpc hext⟩
    · exact ⟨_, WorkerStep.langCacheGet hpc hext⟩
  | scan k => exact ⟨_, WorkerStep.scanned hpc⟩
  | put =>
    obtain ⟨q, hput⟩ := h.out_put hpc
    exact ⟨_, WorkerStep.put hpc hput⟩
  | drain =>
    obtain ⟨r, q, hget⟩ := h.rings.queue_wf.exists_get hready
    cases r with
    | none => exact ⟨_, WorkerStep.drainNull hpc hget⟩
    | some k => exact ⟨_, WorkerStep.drain hpc hget⟩
  | done => exact absurd hpc hdone

/-- The merge thread can step once the merge queue is closed. -/
theorem PipelineInv.merge_canStep (h : PipelineInv s) (hstarted : s.merge ≠ .notStarted)
    (hdone : s.merge ≠ .done) (hclosed : s.outQueue.closed = true) : ∃ s', MergeStep s s' := by
  cases hpc : s.merge with
  | notStarted => exact absurd hpc hstarted
  | collect =>
    obtain ⟨r, q, hget⟩ := h.rings.out_wf.exists_get (Or.inl hclosed)
    cases r with
    | none => exact ⟨_, MergeStep.collectNull hpc hget⟩
    | some i => exact ⟨_, MergeStep.collect hpc hget⟩
  | write => exact ⟨_, MergeStep.write hpc⟩
  | done => exact absurd hpc hdone

theorem PipelineInv.length_items_le (h : PipelineInv s) :
    s.queue.items.length ≤ s.main.putCount cfg.paths.length := by
  have hcard := congrArg Multiset.card h.delivery.conserved
  simp only [Multiset.card_add, Multiset.coe_card, Multiset.card_range] at hcard
  omega

/-- While `main` puts paths it waits only for a worker that can step, provided
some worker takes paths or they all fit. -/
theorem PipelineInv.put_canStep (h : PipelineInv s)
    (htakes : (∃ i, (cfg.startUp i).TakesPaths) ∨ cfg.paths.length ≤ queueCapacity)
    {k : ℕ} (hmain : s.main = .enqueue k) (hk : k < cfg.paths.length) :
    (∃ s', MainStep s s') ∨ ∃ i s', WorkerStep i s s' := by
  have hle := h.length_items_le
  rw [hmain] at hle
  change s.queue.items.length ≤ k at hle
  by_cases hroom : s.queue.items.length < s.queue.cap
  · obtain ⟨q, hput⟩ := h.rings.queue_wf.exists_put hroom k
    exact Or.inl ⟨_, MainStep.put hmain hk hput⟩
  · rw [h.rings.queue_cap] at hroom
    rcases htakes with ⟨i, htakes⟩ | hfit
    · -- the queue is full, so worker `i` has not found it drained
      have hitems : s.queue.items ≠ [] := by
        intro hnil
        rw [hnil] at hroom
        exact hroom (by decide)
      have hstarted : s.worker i ≠ .notStarted := by
        rw [Ne, h.phases.started, hmain]
        exact Nat.not_le.mpr i.isLt
      have hdone : s.worker i ≠ .done := by
        intro hdone
        exact hitems (h.delivery.past_queue i (by rw [hdone]; exact htakes)).2
      obtain ⟨s', hs⟩ := h.worker_canStep hstarted hdone (Or.inr hitems)
      exact Or.inr ⟨i, s', hs⟩
    · omega

/-- **Until `main` has returned, some thread can step.** -/
theorem PipelineInv.canStep (h : PipelineInv s) (hcreate : ∀ i, cfg.createFails i = false)
    (htakes : (∃ i, (cfg.startUp i).TakesPaths) ∨ cfg.paths.length ≤ queueCapacity)
    (hrun : ¬ s.Exited) : (pipelineLts cfg).CanStep s := by
  have byMain : (∃ s', MainStep s s') → (pipelineLts cfg).CanStep s :=
    fun ⟨s', hs⟩ => ⟨.main, s', .main hs⟩
  have byWorker : (∃ i s', WorkerStep i s s') → (pipelineLts cfg).CanStep s :=
    fun ⟨i, s', hs⟩ => ⟨.worker i, s', .worker hrun hs⟩
  have hrange := h.phases.in_range
  have hqueue := h.phases.queue_closed
  cases hmain : s.main with
  | create i =>
    rw [hmain] at hrange
    rcases Nat.lt_or_eq_of_le hrange with hi | rfl
    · exact byMain ⟨_, MainStep.create (i := ⟨i, hi⟩) hmain (hcreate _)⟩
    · exact byMain ⟨_, MainStep.created hmain⟩
  | createMerge =>
    cases hfail : cfg.mergeCreateFails with
    | false => exact byMain ⟨_, MainStep.createMerge hmain hfail⟩
    | true => exact byMain ⟨_, MainStep.createMergeFail hmain hfail⟩
  | enqueue k =>
    rw [hmain] at hrange
    rcases Nat.lt_or_eq_of_le hrange with hk | rfl
    · -- If the work queue is full, a worker that takes paths can make room.
      exact (h.put_canStep htakes hmain hk).elim byMain byWorker
    · exact byMain ⟨_, MainStep.enqueued hmain⟩
  | closeQueue merged => exact byMain ⟨_, MainStep.closeQueue hmain⟩
  | join merged i =>
    rw [hmain] at hrange hqueue
    rcases Nat.lt_or_eq_of_le hrange with hi | rfl
    · by_cases hdone : s.worker ⟨i, hi⟩ = .done
      · exact byMain ⟨_, MainStep.join (i := ⟨i, hi⟩) hmain hdone⟩
      · -- The queue is closed, so the worker that `main` waits for blocks nowhere.
        have hstarted : s.worker ⟨i, hi⟩ ≠ .notStarted := by
          rw [Ne, h.phases.started, hmain]
          exact Nat.not_le.mpr hi
        exact byWorker ⟨_, h.worker_canStep hstarted hdone (Or.inl hqueue)⟩
    · exact byMain ⟨_, MainStep.joined hmain⟩
  | closeOut merged =>
    cases merged with
    | false => exact byMain ⟨_, MainStep.closeOutFail hmain⟩
    | true => exact byMain ⟨_, MainStep.closeOut hmain⟩
  | joinMerge =>
    by_cases hdone : s.merge = .done
    · exact byMain ⟨_, MainStep.joinMerge hmain hdone⟩
    · -- Nor does the merge thread.
      have hstarted : s.merge ≠ .notStarted := by
        rw [Ne, h.phases.merge_started, hmain]
        simp [MainPc.mergeCreated]
      have hclosed := h.phases.out_closed
      rw [hmain] at hclosed
      obtain ⟨s', hs⟩ := h.merge_canStep hstarted hdone hclosed
      exact ⟨.merge, s', .merge hrun hs⟩
  | abortCloseQueue => exact byMain ⟨_, MainStep.abortCloseQueue hmain⟩
  | abortCloseOut => exact byMain ⟨_, MainStep.abortCloseOut hmain⟩
  | freeOut rc => exact byMain ⟨_, MainStep.freeOut hmain⟩
  | freeQueue rc => exact byMain ⟨_, MainStep.freeQueue hmain⟩
  | freeCache rc => exact byMain ⟨_, MainStep.freeCache hmain⟩
  | exited rc => exact absurd ⟨rc, hmain⟩ hrun

end Progress

/-! ### Every step uses up work -/

/-- The steps `main` has left, those of the workers and of the merge thread
aside; a path yet to be put counts for those a worker makes with it. -/
def MainPc.rank (jobs paths : ℕ) : MainPc → ℕ
  | .create i => 12 + jobs + 5 * paths + 6 * (jobs - i)
  | .createMerge => 11 + jobs + 5 * paths
  | .enqueue k => 8 + jobs + 5 * (paths - k)
  | .closeQueue _ => 7 + jobs
  | .join _ i => 6 + (jobs - i)
  | .closeOut _ | .abortCloseQueue => 5
  | .joinMerge | .abortCloseOut => 4
  | .freeOut _ => 3
  | .freeQueue _ => 2
  | .freeCache _ => 1
  | .exited _ => 0

/-- What a worker has left to do, the paths still on the queue aside. -/
def WorkerPc.rank : WorkerPc → ℕ
  | .notStarted | .start => 5
  | .parse _ => 6
  | .scan _ => 5
  | .get | .drain => 4
  | .put => 3
  | .done => 0

/-- What the merge thread has left to do, the vectors still on its queue aside. -/
def MergePc.rank : MergePc → ℕ
  | .notStarted | .collect => 2
  | .write => 1
  | .done => 0

/-- The work that is left. -/
def pipelineRank (s : PipelineState cfg) : ℕ :=
  s.main.rank cfg.jobs cfg.paths.length + tally WorkerPc.rank s.worker + s.merge.rank
    + 4 * s.queue.count + 2 * s.outQueue.count

theorem pipelineRank_main {s s' : PipelineState cfg} (hs : MainStep s s') :
    pipelineRank s' < pipelineRank s := by
  unfold pipelineRank
  cases hs with
  | @create i hpc _ =>
    have hworker := tally_update WorkerPc.rank s.worker i .start
    have hi := i.isLt
    simp only [hpc, MainPc.rank, WorkerPc.rank] at hworker ⊢
    omega
  | put hpc hk hq =>
    have hcount := ioQueuePut_count hq
    simp only [hpc, MainPc.rank, hcount]
    omega
  | join hpc _ =>
    simp only [hpc, MainPc.rank]
    omega
  | createMerge hpc _ =>
    simp only [hpc, MainPc.rank, MergePc.rank]
    omega
  | createFail hpc _ | created hpc | createMergeFail hpc _ | enqueued hpc | closeQueue hpc
  | joined hpc | closeOut hpc | closeOutFail hpc | joinMerge hpc _ | abortCloseQueue hpc
  | abortCloseOut hpc | freeOut hpc | freeQueue hpc | freeCache hpc =>
    simp only [hpc, MainPc.rank, ioQueueClose_count]
    omega

theorem StartUp.rank_next_lt (u : StartUp) : u.next.rank < WorkerPc.start.rank := by
  cases u <;> decide

theorem pipelineRank_worker {i : Fin cfg.jobs} {s s' : PipelineState cfg}
    (hs : WorkerStep i s s') : pipelineRank s' < pipelineRank s := by
  unfold pipelineRank
  have hworker := tally_update WorkerPc.rank s.worker i
  cases hs with
  | start hpc =>
    have hmoved := hworker (cfg.startUp i).next
    have hlt := (cfg.startUp i).rank_next_lt
    simp only [hpc] at hmoved ⊢
    omega
  | @get k q hpc hq =>
    -- A path off the queue pays for the steps of parsing it.
    have hmoved := hworker (.parse k)
    have hcount := ioQueueGet_some_count hq
    simp only [hpc, WorkerPc.rank] at hmoved ⊢
    omega
  | getNull hpc hq =>
    have hmoved := hworker .put
    have hcount := ioQueueGet_count_le hq
    simp only [hpc, WorkerPc.rank] at hmoved ⊢
    omega
  | noExtension hpc _ =>
    have hmoved := hworker .get
    simp only [hpc, WorkerPc.rank] at hmoved ⊢
    omega
  | @langCacheGet k hpc _ =>
    have hmoved := hworker (.scan k)
    simp only [hpc, WorkerPc.rank] at hmoved ⊢
    omega
  | scanned hpc =>
    have hmoved := hworker .get
    simp only [hpc, WorkerPc.rank] at hmoved ⊢
    omega
  | put hpc hq =>
    have hmoved := hworker .done
    have hcount := ioQueuePut_count hq
    simp only [hpc, WorkerPc.rank] at hmoved ⊢
    omega
  | drain hpc hq =>
    -- The worker stays where it is, and the queue is shorter.
    have hcount := ioQueueGet_some_count hq
    dsimp only
    omega
  | drainNull hpc hq =>
    have hmoved := hworker .done
    have hcount := ioQueueGet_count_le hq
    simp only [hpc, WorkerPc.rank] at hmoved ⊢
    omega

theorem pipelineRank_merge {s s' : PipelineState cfg} (hs : MergeStep s s') :
    pipelineRank s' < pipelineRank s := by
  unfold pipelineRank
  cases hs with
  | collect hpc hq =>
    have hcount := ioQueueGet_some_count hq
    dsimp only
    omega
  | collectNull hpc hq =>
    have hcount := ioQueueGet_count_le hq
    simp only [hpc, MergePc.rank]
    omega
  | write hpc =>
    simp only [hpc, MergePc.rank]
    omega

/-- **Every step of every thread lowers the rank.** -/
theorem pipelineRank_step (s : PipelineState cfg) (t : Tid cfg.jobs) (s' : PipelineState cfg)
    (hs : (pipelineLts cfg).Step s t s') : pipelineRank s' < pipelineRank s := by
  cases hs with
  | main hs => exact pipelineRank_main hs
  | worker _ hs => exact pipelineRank_worker hs
  | merge _ hs => exact pipelineRank_merge hs

/-- **From every reachable state some run leads to the end**, and no run goes on
for ever. -/
theorem pipeline_runs_to_exit (hjobs : 1 ≤ cfg.jobs) (hcreate : ∀ i, cfg.createFails i = false)
    (htakes : (∃ i, (cfg.startUp i).TakesPaths) ∨ cfg.paths.length ≤ queueCapacity)
    {s : PipelineState cfg} (h : (pipelineLts cfg).Reachable s) :
    (∃ tr s', (pipelineLts cfg).Run s tr s' ∧ s'.Exited) ∧
      ∀ tr s', (pipelineLts cfg).Run s tr s' → tr.length ≤ pipelineRank s := by
  constructor
  · exact Lts.exists_run_to_final pipelineRank pipelineRank_step
      (fun s hs hrun => (pipelineInv_reachable hjobs hcreate hs).canStep hcreate htakes hrun) h
  · intro tr s' hr
    have hle := hr.length_add_le pipelineRank pipelineRank_step
    omega

/-! ### A queue nobody takes from -/

/-- As long as `main` has not returned, some thread can step. -/
def NeverStuck (cfg : Config) : Prop :=
  ∀ s, (pipelineLts cfg).Reachable s → ¬ s.Exited → (pipelineLts cfg).CanStep s

/-- Without a worker that takes paths nothing is parsed. -/
theorem parsed_eq_nil_of_none_takes (hcreate : ∀ i, cfg.createFails i = false)
    (hnone : ∀ i, ¬ (cfg.startUp i).TakesPaths) {s : PipelineState cfg}
    (h : (pipelineLts cfg).Reachable s) : ∀ i, s.parsed i = [] := by
  have hboth : Phases s.main s ∧ ∀ i, s.parsed i = [] := by
    refine h.invariant (I := fun s => Phases s.main s ∧ ∀ i, s.parsed i = []) ?_ ?_
    · rintro s rfl
      exact ⟨Phases.init, fun _ => rfl⟩
    · intro s t s' ⟨hphases, hparsed⟩ hs
      refine ⟨hphases.step hcreate hs, ?_⟩
      cases hs with
      | main hs => cases hs <;> exact hparsed
      | merge _ hs => cases hs <;> exact hparsed
      | @worker _ i _ hs =>
        cases hs with
        | get hpc _ =>
          -- only a worker that started up is there
          have hfits := hphases.fits i
          rw [hpc] at hfits
          have hok : cfg.startUp i = .ok := hfits
          exact absurd (by rw [hok]; trivial) (hnone i)
        | start _ | getNull _ _ | noExtension _ _ | langCacheGet _ _ | scanned _ | put _ _
        | drain _ _ | drainNull _ _ => exact hparsed
  exact hboth.2

/-- When nobody takes paths, `main` returns only if they all fit in the work queue. -/
theorem PipelineInv.length_paths_le {s : PipelineState cfg} (h : PipelineInv s)
    (hmerge : cfg.mergeCreateFails = false) (hnone : ∀ i, ¬ (cfg.startUp i).TakesPaths)
    (hparsed : ∀ i, s.parsed i = [])
    (hexit : s.Exited) : cfg.paths.length ≤ queueCapacity := by
  have hconserved := h.delivery.conserved
  have hdropped : s.dropped = [] := by
    by_contra hne
    obtain ⟨i, hfails⟩ := h.delivery.dropped hne
    exact hnone i (by rw [hfails]; trivial)
  have hnothing : s.parsedPaths = 0 := by simp [PipelineState.parsedPaths, tally, hparsed]
  rw [hdropped, hnothing, h.exited_zero hmerge hexit] at hconserved
  have hcard : s.queue.items.length = cfg.paths.length := by
    simpa [MainPc.putCount] using congrArg Multiset.card hconserved
  have hroom := h.rings.queue_wf.length_items_le
  rwa [h.rings.queue_cap, hcard] at hroom

/-- With more paths than the work queue has slots, and nobody to take them, `main`
waits for ever. -/
theorem not_neverStuck (hjobs : 1 ≤ cfg.jobs) (hcreate : ∀ i, cfg.createFails i = false)
    (hmerge : cfg.mergeCreateFails = false) (hnone : ∀ i, ¬ (cfg.startUp i).TakesPaths)
    (hpaths : queueCapacity < cfg.paths.length) : ¬ NeverStuck cfg := by
  intro hnever
  have hinit : (pipelineLts cfg).Reachable (pipelineInit cfg) := Lts.Reachable.init rfl
  obtain ⟨tr, s, hr, hexit⟩ :=
    Lts.exists_run_to_final pipelineRank pipelineRank_step hnever hinit
  have hreach := hinit.run hr
  have hle := (pipelineInv_reachable hjobs hcreate hreach).length_paths_le hmerge hnone
    (parsed_eq_nil_of_none_takes hcreate hnone hreach) hexit
  omega

/-- **Which start-up failures can hang the program**: those of all workers before they
take from the work queue, when there are more paths than it has slots. -/
theorem startUp_failure_never_stuck_iff {jobs : ℕ} (hjobs : 1 ≤ jobs) (paths : List CStr)
    (startUp : Fin jobs → StartUp) :
    NeverStuck (Config.ofStartUp paths startUp)
      ↔ (∃ i, (startUp i).TakesPaths) ∨ paths.length ≤ queueCapacity := by
  have hcreate : ∀ i, (Config.ofStartUp paths startUp).createFails i = false := fun _ => rfl
  constructor
  · intro hnever
    by_contra hneither
    rw [not_or, not_exists, Nat.not_le] at hneither
    exact not_neverStuck hjobs hcreate rfl hneither.1 hneither.2 hnever
  · intro htakes s h
    exact (pipelineInv_reachable hjobs hcreate h).canStep hcreate htakes

theorem startUp_failure_never_stuck_of_two :
    NeverStuck (Config.ofStartUp [CStr.lit "a.c"] ![.parserFails, .cursorFails]) :=
  (startUp_failure_never_stuck_iff (by decide) _ _).mpr (Or.inr (by decide))

/-- One worker whose `ts_parser_new` fails, and one path more than the queue has slots. -/
theorem parser_failure_hangs_main : ¬ NeverStuck
    (Config.ofStartUp (List.replicate 513 (CStr.lit "a.c")) fun _ : Fin 1 => .parserFails) := by
  have hpaths : queueCapacity < (List.replicate 513 (CStr.lit "a.c")).length := by
    rw [List.length_replicate]
    decide
  exact not_neverStuck le_rfl (fun _ => rfl) rfl (fun _ => id) hpaths

end Tsag
