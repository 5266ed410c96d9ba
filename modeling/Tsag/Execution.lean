import Tsag.Conservation
import Tsag.Schedule

/-!
# The tags file of an execution

A healthy execution follows a schedule: each worker takes its paths in the order
of the work queue, and the vectors of all workers reach the merge thread.  Every
schedule is in turn that of an execution.

## Main definitions

* `TakenInOrder` — paths leave the work queue in the order they were put on it.
* `PipelineState.tagsFile` — the bytes `merge` writes in an execution.
* `Serving`, `Closing` — the states on the way to the execution of a schedule.

## Main results

* `exists_schedule` — a healthy execution writes what some schedule writes.
* `exists_execution` — every schedule is that of a healthy execution.
* `executions_write_canonicalLines_iff` — exactly when the interleaving does not show.
-/

namespace Tsag

variable {cfg : Config}

/-! ### The order of the paths -/

/-- What a worker has parsed and what is still on the work queue is in the order in
which it was put there. -/
def TakenInOrder (s : PipelineState cfg) : Prop :=
  ∀ i, (s.parsed i ++ s.queue.items).Pairwise (· < ·)

theorem Delivery.lt_putCount {pc : MainPc} {s : PipelineState cfg} (h : Delivery pc s)
    {i : Fin cfg.jobs} {k : ℕ} (hk : k ∈ s.parsed i ++ s.queue.items) :
    k < pc.putCount cfg.paths.length := by
  rw [← Multiset.mem_range, ← h.conserved]
  rcases List.mem_append.mp hk with hk | hk
  · exact Multiset.mem_add.mpr (Or.inr (Multiset.mem_sum.mpr ⟨i, Finset.mem_univ i, hk⟩))
  · exact Multiset.mem_add.mpr (Or.inl (Multiset.mem_add.mpr (Or.inl hk)))

theorem TakenInOrder.step {s s' : PipelineState cfg} {t : Tid cfg.jobs}
    (hs : PipelineStep s t s') (hinv : PipelineInv s) (h : TakenInOrder s) : TakenInOrder s' := by
  intro j
  have hj := h j
  cases hs with
  | main hs =>
    cases hs with
    | @put k q hpc _ hq =>
      have hdelivery := hinv.delivery
      rw [hpc] at hdelivery
      rw [(hinv.rings.queue_wf.put hq).2, ← List.append_assoc]
      refine List.pairwise_append.mpr ⟨hj, List.pairwise_singleton _ _, ?_⟩
      intro k' hk' l hl
      rw [List.mem_singleton.mp hl]
      exact hdelivery.lt_putCount hk'
    | _ => exact hj
  | @worker _ i _ hs =>
    cases hs with
    | @get k q _ hq =>
      have hitems := (hinv.rings.queue_wf.get_some hq).2
      rw [hitems] at hj
      by_cases hji : j = i
      · subst hji
        simpa using hj
      · simp only [Function.update_of_ne hji]
        exact hj.sublist ((List.sublist_cons_self k _).append_left _)
    | drain _ hq =>
      rw [(hinv.rings.queue_wf.get_some hq).2] at hj
      exact hj.sublist ((List.sublist_cons_self _ _).append_left _)
    | getNull _ hq | drainNull _ hq =>
      obtain ⟨-, -, rfl⟩ := hinv.rings.queue_wf.get_null hq
      exact hj
    | start _ | noExtension _ _ | langCacheGet _ _ | scanned _ | put _ _ => exact hj
  | merge _ hs => cases hs <;> exact hj

theorem takenInOrder_reachable (hjobs : 1 ≤ cfg.jobs) (hcreate : ∀ i, cfg.createFails i = false)
    {s : PipelineState cfg} (h : (pipelineLts cfg).Reachable s) : TakenInOrder s := by
  have hboth : PipelineInv s ∧ TakenInOrder s := by
    refine h.invariant (I := fun s => PipelineInv s ∧ TakenInOrder s) ?_ ?_
    · rintro s rfl
      exact ⟨pipelineInv_reachable hjobs hcreate (Lts.Reachable.init rfl),
        fun _ => List.Pairwise.nil⟩
    · intro _ _ _ hold hs
      exact ⟨hold.1.step hcreate hs, hold.2.step hs hold.1⟩
  exact hboth.2

/-! ### The schedule of an execution -/

/-- The paths a worker has handed to `parse_file_lines`, in order. -/
def PipelineState.taken (s : PipelineState cfg) (i : Fin cfg.jobs) : List CStr :=
  (s.parsed i).filterMap fun k => cfg.paths[k]?

/-- The bytes `merge` writes when it has collected its batches. -/
def PipelineState.tagsFile (qsort : Qsort CStr (compareLines id)) (files : FileLines)
    (s : PipelineState cfg) (cap : Fin cfg.jobs → ℕ) (heap : List HeapEntry) : Option Bytes :=
  Tsag.tagsFile qsort files s.taken cap s.batches heap

section Taken

variable {s : PipelineState cfg}

/-- Every path parsed so far went where the schedule says. -/
def Assigned (who : Fin cfg.paths.length → Fin cfg.jobs) (s : PipelineState cfg) : Prop :=
  ∀ i, ∀ k ∈ s.parsed i, ∃ hk : k < cfg.paths.length, who ⟨k, hk⟩ = i

/-- Once every path has been parsed, a worker's paths are all those that went to it, in
order. -/
theorem Assigned.taken_eq {who : Fin cfg.paths.length → Fin cfg.jobs} (hwho : Assigned who s)
    (hjobs : 1 ≤ cfg.jobs) (hcreate : ∀ i, cfg.createFails i = false)
    (h : (pipelineLts cfg).Reachable s) (honce : s.ParsedOnce) (i : Fin cfg.jobs) :
    s.taken i
      = ((List.finRange cfg.paths.length).filter fun k => who k = i).map cfg.paths.get := by
  have hordered := takenInOrder_reachable hjobs hcreate h i
  have hparsed : s.parsed i
      = ((List.finRange cfg.paths.length).filter fun k => who k = i).map Fin.val := by
    apply (List.pairwise_append.mp hordered).1.eq_of_mem_iff
    · rw [List.pairwise_map]
      exact (List.pairwise_lt_finRange _).filter _
    · intro k
      have hmem : k ∈ s.parsed i ↔ ∃ hk : k < cfg.paths.length, who ⟨k, hk⟩ = i := by
        refine ⟨hwho i k, ?_⟩
        rintro ⟨hk, rfl⟩
        obtain ⟨j, hj, -⟩ := honce.once k hk
        have hmem : k ∈ s.parsed j := List.count_pos_iff.mp (by rw [hj]; exact Nat.one_pos)
        obtain ⟨_, rfl⟩ := hwho j k hmem
        exact hmem
      rw [hmem]
      simp [Fin.exists_iff, and_comm]
  rw [PipelineState.taken, hparsed, List.filterMap_map]
  simp

/-- A worker that has parsed a path has started up. -/
theorem startUp_of_parsed (hcreate : ∀ i, cfg.createFails i = false)
    (h : (pipelineLts cfg).Reachable s) :
    ∀ i, s.parsed i ≠ [] → cfg.startUp i = .ok := by
  have hboth : Phases s.main s ∧ ∀ i, s.parsed i ≠ [] → cfg.startUp i = .ok := by
    refine h.invariant (I := fun s => Phases s.main s ∧ ∀ i, s.parsed i ≠ [] →
      cfg.startUp i = .ok) ?_ ?_
    · rintro s rfl
      exact ⟨Phases.init, fun _ hne => absurd rfl hne⟩
    · rintro s t s' ⟨hphases, hold⟩ hs
      refine ⟨hphases.step hcreate hs, ?_⟩
      intro j hj
      cases hs with
      | main hs => cases hs <;> exact hold j hj
      | merge _ hs => cases hs <;> exact hold j hj
      | @worker _ i _ hs =>
        cases hs with
        | get hpc hq =>
          -- only a worker that has started up comes to the loop
          have hfits := hphases.fits i
          rw [hpc] at hfits
          by_cases hji : j = i
          · rw [hji]
            exact hfits
          · simp only [Function.update_of_ne hji] at hj
            exact hold j hj
        | _ => exact hold j hj
  exact hboth.2

/-- **One worker is enough**: the only worker that starts up takes all paths, in order,
and its vector is the only one that reaches the merge thread. -/
theorem taken_of_only {j : Fin cfg.jobs} (hcreate : ∀ i, cfg.createFails i = false)
    (hmerge : cfg.mergeCreateFails = false) (honly : ∀ i, cfg.startUp i = .ok ↔ i = j)
    (hvec : ∀ i, cfg.startUp i ≠ .vecFails) (h : (pipelineLts cfg).Reachable s)
    (hexit : s.Exited) : s.taken j = cfg.paths ∧ s.batches = [j] := by
  have hjobs : 1 ≤ cfg.jobs := Fin.pos j
  have hinv := pipelineInv_reachable hjobs hcreate h
  have honce : s.ParsedOnce := PipelineState.parsedOnce_of_parsedPaths <|
    (losesNoPath_of_no_vecFails hcreate hmerge ⟨j, (honly j).mpr rfl⟩ (Or.inl hvec) s h).1 hexit
  constructor
  · have hassigned : Assigned (fun _ => j) s := by
      intro i k hk
      have hok := startUp_of_parsed hcreate h i (List.ne_nil_of_mem hk)
      exact ⟨honce.only i k hk, ((honly i).mp hok).symm⟩
    rw [hassigned.taken_eq hjobs hcreate h honce]
    simp
  · have hmem : ∀ i, i ∈ s.batches ↔ i ∈ [j] := by
      intro i
      rw [hinv.mem_batches_of_exited hmerge hexit, honly, List.mem_singleton]
    exact List.perm_singleton.mp <|
      (List.perm_ext_iff_of_nodup hinv.batches_nodup (List.nodup_singleton j)).mpr hmem

/-- **A healthy execution follows a schedule.** -/
theorem exists_schedule (hcfg : cfg.IsHealthy) (hjobs : 1 ≤ cfg.jobs)
    (h : (pipelineLts cfg).Reachable s) (hexit : s.Exited) (cap : Fin cfg.jobs → ℕ)
    {heap : List HeapEntry} (hheap : heap.length = cfg.jobs) :
    ∃ schedule : Schedule cfg.paths, ∀ qsort files,
      schedule.tagsFile qsort files = s.tagsFile qsort files cap heap := by
  have hinv := pipelineInv_reachable hjobs hcfg.createFails h
  have honce := hinv.parsedOnce_of_exited hcfg hjobs hexit
  choose who hwho hother using fun k : Fin cfg.paths.length => honce.once k k.isLt
  have hassigned : Assigned who s := by
    intro i k hk
    have hlt := honce.only i k hk
    refine ⟨hlt, ?_⟩
    by_contra hne
    exact hother ⟨k, hlt⟩ i (Ne.symm hne) hk
  have horder : s.batches.Perm (List.finRange cfg.jobs) :=
    (List.perm_ext_iff_of_nodup hinv.batches_nodup (List.nodup_finRange _)).mpr fun i =>
      iff_of_true ((hinv.mem_batches_of_exited hcfg.mergeCreateFails hexit i).mpr (hcfg.startUp i))
        (List.mem_finRange i)
  refine ⟨⟨cfg.jobs, hjobs, who, s.batches, horder, cap, heap, hheap⟩, ?_⟩
  intro qsort files
  have htaken : s.taken
      = Schedule.taken ⟨cfg.jobs, hjobs, who, s.batches, horder, cap, heap, hheap⟩ :=
    funext (hassigned.taken_eq hjobs hcfg.createFails h honce)
  simp only [PipelineState.tagsFile, Schedule.tagsFile, htaken]

end Taken

/-! ### The executions of a schedule -/

section Realize

variable {s : PipelineState cfg} {who : Fin cfg.paths.length → Fin cfg.jobs}

/-- `main` has put `k` paths, and all of them have been parsed. -/
structure Serving (who : Fin cfg.paths.length → Fin cfg.jobs) (k : ℕ)
    (worker : Fin cfg.jobs → WorkerPc) (s : PipelineState cfg) : Prop where
  reachable : (pipelineLts cfg).Reachable s
  main : s.main = .enqueue k
  worker_eq : s.worker = worker
  items : s.queue.items = []
  outItems : s.outQueue.items = []
  batches : s.batches = []
  assigned : Assigned who s

/-- All workers start up before the first path is put. -/
theorem exists_serving_zero (hcfg : cfg.IsHealthy) (who : Fin cfg.paths.length → Fin cfg.jobs) :
    ∃ s, Serving who 0 (fun _ => .get) s := by
  have hstart : ∀ n ≤ cfg.jobs, ∃ s,
      Serving who 0 (fun i => if (i : ℕ) < n then .get else .start) s := by
    intro n hn
    induction n with
    | zero =>
      have h₀ := reachable_createdState le_rfl fun i _ => hcfg.createFails i
      have h₁ := h₀.step (.main (MainStep.created rfl))
      have h₂ := h₁.step (.main (MainStep.createMerge rfl hcfg.mergeCreateFails))
      refine ⟨_, h₂, rfl, ?_, rfl, rfl, rfl, fun i k hk => absurd hk List.not_mem_nil⟩
      funext i
      exact (if_pos i.isLt).trans (if_neg (Nat.not_lt_zero _)).symm
    | succ n ih =>
      obtain ⟨s, hs⟩ := ih (Nat.le_of_succ_le hn)
      have hpc : s.worker ⟨n, hn⟩ = .start := by
        rw [hs.worker_eq]
        exact if_neg (lt_irrefl n)
      have hrun : ¬ s.Exited := by
        rintro ⟨rc, hrc⟩
        cases hs.main.symm.trans hrc
      refine ⟨_, hs.reachable.step (.worker hrun (WorkerStep.start hpc)), hs.main, ?_, hs.items,
        hs.outItems, hs.batches, hs.assigned⟩
      simp only [hs.worker_eq, hcfg.startUp]
      exact update_ite_lt hn .get .start
  obtain ⟨s, hs⟩ := hstart cfg.jobs le_rfl
  refine ⟨s, { hs with worker_eq := hs.worker_eq.trans ?_ }⟩
  funext i
  exact if_pos i.isLt

/-- A worker gets through `parse_file_lines` on its own. -/
theorem reachable_parsed (h : (pipelineLts cfg).Reachable s) (hrun : ¬ s.Exited) {i : Fin cfg.jobs}
    {k : ℕ} (hpc : s.worker i = .parse k) :
    (pipelineLts cfg).Reachable { s with worker := Function.update s.worker i .get } := by
  by_cases hext : (cfg.paths[k]?).bind findExtension = none
  · exact h.step (.worker hrun (WorkerStep.noExtension hpc hext))
  · have h₁ := h.step (.worker hrun (WorkerStep.langCacheGet hpc hext))
    have hscan : Function.update s.worker i (.scan k) i = .scan k := Function.update_self ..
    have h₂ := h₁.step (.worker hrun (WorkerStep.scanned hscan))
    simpa using h₂

/-- `main` puts the next path, and the worker it is for takes it. -/
theorem Serving.serve (hcfg : cfg.IsHealthy) {k : ℕ} (h : Serving who k (fun _ => .get) s)
    (hk : k < cfg.paths.length) : ∃ s', Serving who (k + 1) (fun _ => .get) s' := by
  have hjobs : 1 ≤ cfg.jobs := Fin.pos (who ⟨k, hk⟩)
  have hrings := (pipelineInv_reachable hjobs hcfg.createFails h.reachable).rings
  have hroom : s.queue.items.length < s.queue.cap := by
    rw [h.items, hrings.queue_cap]
    decide
  obtain ⟨q, hput⟩ := hrings.queue_wf.exists_put hroom k
  obtain ⟨hwf, hitems⟩ := hrings.queue_wf.put hput
  rw [h.items, List.nil_append] at hitems
  obtain ⟨q', hget, hempty⟩ := hwf.exists_get_some hitems
  have h₁ := h.reachable.step (.main (MainStep.put h.main hk hput))
  have hpc : s.worker (who ⟨k, hk⟩) = .get := by rw [h.worker_eq]
  have h₂ := h₁.step (.worker (by rintro ⟨rc, ⟨⟩⟩) (WorkerStep.get hpc hget))
  have hparse : Function.update s.worker (who ⟨k, hk⟩) (.parse k) (who ⟨k, hk⟩) = .parse k :=
    Function.update_self ..
  have h₃ := reachable_parsed h₂ (by rintro ⟨rc, ⟨⟩⟩) hparse
  refine ⟨_, h₃, rfl, ?_, hempty, h.outItems, h.batches, ?_⟩
  · simp [h.worker_eq]
  · intro i j hj
    by_cases hi : i = who ⟨k, hk⟩
    · subst hi
      simp only [Function.update_self, List.mem_append, List.mem_singleton] at hj
      rcases hj with hj | rfl
      · exact h.assigned _ j hj
      · exact ⟨hk, rfl⟩
    · simp only [Function.update_of_ne hi] at hj
      exact h.assigned i j hj

/-- The work queue is closed, and these workers have put their vectors. -/
structure Closing (who : Fin cfg.paths.length → Fin cfg.jobs) (put : List (Fin cfg.jobs))
    (s : PipelineState cfg) : Prop where
  reachable : (pipelineLts cfg).Reachable s
  main : s.main = .join true 0
  done : ∀ i ∈ put, s.worker i = .done
  waiting : ∀ i, i ∉ put → s.worker i = .get
  closed : s.queue.closed = true
  items : s.queue.items = []
  outItems : s.outQueue.items = put
  batches : s.batches = []
  assigned : Assigned who s

theorem exists_closing (hcfg : cfg.IsHealthy) (who : Fin cfg.paths.length → Fin cfg.jobs) :
    ∃ s, Closing who [] s := by
  have hserve : ∀ k ≤ cfg.paths.length, ∃ s, Serving who k (fun _ => .get) s := by
    intro k hk
    induction k with
    | zero => exact exists_serving_zero hcfg who
    | succ k ih =>
      obtain ⟨s, hs⟩ := ih (Nat.le_of_succ_le hk)
      exact hs.serve hcfg hk
  obtain ⟨s, hs⟩ := hserve _ le_rfl
  have h₁ := hs.reachable.step (.main (MainStep.enqueued hs.main))
  have h₂ := h₁.step (.main (MainStep.closeQueue rfl))
  exact ⟨_, h₂, rfl, fun i hi => absurd hi List.not_mem_nil, fun i _ => congrFun hs.worker_eq i,
    rfl, hs.items, hs.outItems, hs.batches, hs.assigned⟩

/-- One more worker finds the work queue closed and puts its vector. -/
theorem Closing.put (hcfg : cfg.IsHealthy) {put : List (Fin cfg.jobs)} (h : Closing who put s)
    {i : Fin cfg.jobs} (hi : i ∉ put) : ∃ s', Closing who (put ++ [i]) s' := by
  have hinv := pipelineInv_reachable (Fin.pos i) hcfg.createFails h.reachable
  have hrun : ¬ s.Exited := by
    rintro ⟨rc, hrc⟩
    cases h.main.symm.trans hrc
  have hget := hinv.rings.queue_wf.get_of_drained h.closed h.items
  have h₁ := h.reachable.step (.worker hrun (WorkerStep.getNull (h.waiting i hi) hget))
  have hinv₁ := pipelineInv_reachable (Fin.pos i) hcfg.createFails h₁
  have hpc : Function.update s.worker i .put i = .put := Function.update_self ..
  obtain ⟨q, hput⟩ := hinv₁.out_put hpc
  have h₂ := h₁.step (.worker hrun (WorkerStep.put hpc hput))
  have hitems : q.items = s.outQueue.items ++ [i] := (hinv₁.rings.out_wf.put hput).2
  refine ⟨_, h₂, h.main, ?_, ?_, h.closed, h.items, ?_, h.batches, h.assigned⟩
  · intro j hj
    by_cases hji : j = i
    · simp [hji]
    · have hmem : j ∈ put := by simpa [hji] using hj
      simpa [Function.update_of_ne hji] using h.done j hmem
  · intro j hj
    rw [List.mem_append, List.mem_singleton, not_or] at hj
    simpa [Function.update_of_ne hj.2] using h.waiting j hj.1
  · rw [hitems, h.outItems]

theorem exists_closing_append (hcfg : cfg.IsHealthy) (order : List (Fin cfg.jobs)) :
    ∀ put, (put ++ order).Nodup → (∃ s, Closing who put s) → ∃ s, Closing who (put ++ order) s := by
  induction order with
  | nil => simp
  | cons i order ih =>
    rintro put hnodup ⟨s, hs⟩
    have hi : i ∉ put := fun hmem =>
      (List.nodup_append.mp hnodup).2.2 i hmem i (List.mem_cons_self ..) rfl
    rw [List.append_cons] at hnodup ⊢
    exact ih (put ++ [i]) hnodup (hs.put hcfg hi)

/-- Once all workers are done, the vectors reach the merge thread in the order of
their queue, and nothing else is parsed. -/
theorem settled_step {order : List (Fin cfg.jobs)} {parsed : Fin cfg.jobs → List ℕ}
    (hjobs : 1 ≤ cfg.jobs) (hcreate : ∀ i, cfg.createFails i = false)
    (s : PipelineState cfg) (t : Tid cfg.jobs) (s' : PipelineState cfg)
    (h : (pipelineLts cfg).Reachable s ∧ (∀ i, s.worker i = .done) ∧
      s.batches ++ s.outQueue.items = order ∧ s.parsed = parsed)
    (hs : (pipelineLts cfg).Step s t s') :
    (pipelineLts cfg).Reachable s' ∧ (∀ i, s'.worker i = .done) ∧
      s'.batches ++ s'.outQueue.items = order ∧ s'.parsed = parsed := by
  obtain ⟨hreach, hdone, horder, hparsed⟩ := h
  refine ⟨hreach.step hs, ?_⟩
  have hinv := pipelineInv_reachable hjobs hcreate hreach
  cases hs with
  | main hs =>
    cases hs with
    | @create i hpc _ =>
      have hphases := hinv.phases
      rw [hpc] at hphases
      cases (hdone i).symm.trans ((hphases.started i).mpr le_rfl)
    | _ => exact ⟨hdone, horder, hparsed⟩
  | worker _ hs =>
    obtain ⟨-, -, -, -, -, x, -, -, hne, -⟩ := hs.moves
    exact absurd (hdone _) hne
  | merge _ hs =>
    cases hs with
    | collect _ hq =>
      refine ⟨hdone, ?_, hparsed⟩
      rw [← horder, (hinv.rings.out_wf.get_some hq).2, List.append_assoc]
      rfl
    | collectNull _ hq =>
      obtain ⟨-, -, rfl⟩ := hinv.rings.out_wf.get_null hq
      exact ⟨hdone, horder, hparsed⟩
    | write _ => exact ⟨hdone, horder, hparsed⟩

/-- **Every schedule is that of an execution**: the paths can go where `who` says and
the vectors reach the merge thread in this order. -/
theorem exists_execution (hcfg : cfg.IsHealthy) (hjobs : 1 ≤ cfg.jobs)
    (who : Fin cfg.paths.length → Fin cfg.jobs) {order : List (Fin cfg.jobs)}
    (horder : order.Perm (List.finRange cfg.jobs)) :
    ∃ s, (pipelineLts cfg).Reachable s ∧ s.Exited ∧ Assigned who s ∧ s.batches = order := by
  have hnodup : ([] ++ order).Nodup := horder.nodup_iff.mpr (List.nodup_finRange _)
  obtain ⟨s, hs⟩ := exists_closing_append hcfg order [] hnodup (exists_closing hcfg who)
  have hall : ∀ i, s.worker i = .done := fun i =>
    hs.done i (horder.mem_iff.mpr (List.mem_finRange i))
  have hqueued : s.batches ++ s.outQueue.items = order := by
    rw [hs.batches, hs.outItems]
    rfl
  have htakes : ∃ i, (cfg.startUp i).TakesPaths := ⟨⟨0, hjobs⟩, by rw [hcfg.startUp]; trivial⟩
  obtain ⟨⟨tr, s', hr, hexit⟩, -⟩ :=
    pipeline_runs_to_exit hjobs hcfg.createFails (Or.inl htakes) hs.reachable
  obtain ⟨hreach, -, horder', hparsed⟩ :=
    hr.preserves (settled_step hjobs hcfg.createFails) ⟨hs.reachable, hall, hqueued, rfl⟩
  have hinv := pipelineInv_reachable hjobs hcfg.createFails hreach
  have hmain := hinv.exited_zero hcfg.mergeCreateFails hexit
  have hjoined : s'.merge = .done := hinv.phases.merge_joined (by simp [hmain, MainPc.mergeJoined])
  refine ⟨s', hreach, hexit, fun i k hk => hs.assigned i k (hparsed ▸ hk), ?_⟩
  rw [← horder', (hinv.collection.merge_past (Or.inr hjoined)).2, List.append_nil]

theorem exists_execution_tagsFile {paths : List CStr} (schedule : Schedule paths) :
    ∃ s : PipelineState (Config.healthy schedule.jobs paths),
      (pipelineLts (Config.healthy schedule.jobs paths)).Reachable s ∧ s.Exited ∧
      ∀ qsort files, s.tagsFile qsort files schedule.cap schedule.heap
        = schedule.tagsFile qsort files := by
  have hcfg := Config.isHealthy_healthy schedule.jobs paths
  obtain ⟨s, hreach, hexit, hassigned, hbatches⟩ :=
    exists_execution hcfg schedule.jobs_pos schedule.who schedule.order_perm
  have hinv := pipelineInv_reachable schedule.jobs_pos hcfg.createFails hreach
  have honce := hinv.parsedOnce_of_exited hcfg schedule.jobs_pos hexit
  refine ⟨s, hreach, hexit, ?_⟩
  intro qsort files
  have htaken : s.taken = schedule.taken :=
    funext (hassigned.taken_eq schedule.jobs_pos (fun _ => rfl) hreach honce)
  simp only [PipelineState.tagsFile, Schedule.tagsFile, htaken, hbatches]
  rfl

end Realize

/-- **When the interleaving does not show**: every healthy execution writes the
canonical lines exactly where no path that is enqueued more than once has a line. -/
theorem executions_write_canonicalLines_iff (qsort : Qsort CStr (compareLines id))
    (files : FileLines) (paths : List CStr) :
    (∀ N, 1 ≤ N → N ≤ intMax → ∀ s, (pipelineLts (Config.healthy N paths)).Reachable s →
      s.Exited → ∀ (cap : Fin N → ℕ) (heap : List HeapEntry), heap.length = N →
        s.tagsFile qsort files cap heap = some ((canonicalLines files paths).flatMap CStr.bytes))
    ↔ ∀ path, 1 < paths.count path → files.lines path = [] := by
  constructor
  · intro hcanonical path htwice
    by_contra hne
    obtain ⟨line, hline⟩ := List.exists_mem_of_ne_nil _ hne
    obtain ⟨k, hsplit⟩ := exists_split_ne_canonicalLines qsort htwice hline
    obtain ⟨s, hreach, hexit, htags⟩ := exists_execution_tagsFile (Schedule.split k)
    refine hsplit ((htags qsort files).symm.trans ?_)
    exact hcanonical 2 (by decide) (by decide) s hreach hexit _ _ rfl
  · intro honce N hN _ s hreach hexit cap heap hheap
    obtain ⟨schedule, htags⟩ :=
      exists_schedule (Config.isHealthy_healthy N paths) hN hreach hexit cap hheap
    exact (htags qsort files).symm.trans (scheduleIndependent_of_once qsort honce schedule)

end Tsag
