import Tsag.Pipeline

/-!
# The invariant of the pipeline

What holds in every reachable state when `pthread_create` fails for no worker.
It has four parts: what the point `main` has reached says of the other threads
(`Phases`), the two rings (`Rings`), the paths on their way to the workers
(`Delivery`) and the vectors on their way to the merge thread (`Collection`).

## Main definitions

* `MainPc.created`, `MainPc.joined`, … — what `main` has done at a point.
* `PipelineInv` — the invariant.

## Main results

* `Phases.step`, `Rings.step`, `Delivery.step`, `Collection.step` — what one step preserves.
* `pipelineInv_reachable` — the invariant holds in every reachable state.
-/

namespace Tsag

variable {cfg : Config}

/-! ### What `main` has done -/

namespace MainPc

/-- The counters of `main`'s loops are in range, and `main` is not on the exit
path of a worker it could not create. -/
def InRange (jobs paths : ℕ) : MainPc → Prop
  | .create i | .join _ i => i ≤ jobs
  | .enqueue k => k ≤ paths
  | .abortCloseQueue | .abortCloseOut => False
  | _ => True

/-- The workers created. -/
def created (jobs : ℕ) : MainPc → ℕ
  | .create i => i
  | _ => jobs

/-- The workers joined. -/
def joined (jobs : ℕ) : MainPc → ℕ
  | .join _ i => i
  | .closeOut _ | .joinMerge | .freeOut _ | .freeQueue _ | .freeCache _ | .exited _ => jobs
  | _ => 0

/-- The paths put on the work queue. -/
def putCount (paths : ℕ) : MainPc → ℕ
  | .enqueue k => k
  | .closeQueue merged | .join merged _ | .closeOut merged => bif merged then paths else 0
  | .joinMerge => paths
  | .freeOut rc | .freeQueue rc | .freeCache rc | .exited rc => bif rc == 0 then paths else 0
  | _ => 0

/-- There is a merge thread. -/
def mergeCreated : MainPc → Bool
  | .closeQueue merged | .join merged _ | .closeOut merged => merged
  | .enqueue _ | .joinMerge => true
  | .freeOut rc | .freeQueue rc | .freeCache rc | .exited rc => rc == 0
  | _ => false

/-- The merge thread has been joined. -/
def mergeJoined : MainPc → Bool
  | .freeOut rc | .freeQueue rc | .freeCache rc | .exited rc => rc == 0
  | _ => false

/-- There will be no merge thread. -/
def withoutMerge : MainPc → Bool
  | .closeQueue merged | .join merged _ | .closeOut merged => !merged
  | .freeOut rc | .freeQueue rc | .freeCache rc | .exited rc => rc != 0
  | _ => false

/-- The work queue has been closed. -/
def queueClosed : MainPc → Bool
  | .create _ | .createMerge | .enqueue _ | .closeQueue _ | .abortCloseQueue => false
  | _ => true

/-- The merge queue has been closed. -/
def outClosed : MainPc → Bool
  | .joinMerge | .freeOut _ | .freeQueue _ | .freeCache _ | .exited _ => true
  | _ => false

/-- Something may have been freed. -/
def freeing : MainPc → Bool
  | .freeOut _ | .freeQueue _ | .freeCache _ | .exited _ => true
  | _ => false

end MainPc

/-- A worker whose start-up ends like this can be at this point. -/
def WorkerPc.Fits (u : StartUp) : WorkerPc → Prop
  | .notStarted | .start | .done => True
  | .get | .parse _ | .scan _ | .put => u = .ok
  | .drain => u = .vecFails

theorem StartUp.fits_next (u : StartUp) : u.next.Fits u := by
  cases u with
  | ok => rfl
  | parserFails => trivial
  | cursorFails => trivial
  | vecFails => rfl

/-! ### What a step of another thread can do -/

/-- Everything a step of worker `i` does but for what passes through the queues. -/
theorem WorkerStep.moves {i : Fin cfg.jobs} {s s' : PipelineState cfg} (hs : WorkerStep i s s') :
    s'.main = s.main ∧ s'.merge = s.merge ∧ s'.freed = s.freed ∧
      s'.queue.closed = s.queue.closed ∧ s'.outQueue.closed = s.outQueue.closed ∧
      ∃ x, s'.worker = Function.update s.worker i x ∧ s.worker i ≠ .notStarted ∧
        s.worker i ≠ .done ∧ x ≠ .notStarted ∧
        ((s.worker i).Fits (cfg.startUp i) → x.Fits (cfg.startUp i)) := by
  cases hs with
  | start hpc =>
    refine ⟨rfl, rfl, rfl, rfl, rfl, _, rfl, by simp [hpc], by simp [hpc], ?_, ?_⟩
    · cases cfg.startUp i <;> simp [StartUp.next]
    · intro _
      exact StartUp.fits_next _
  | get hpc hq =>
    refine ⟨rfl, rfl, rfl, ioQueueGet_closed hq, rfl, _, rfl, ?_⟩
    simp [hpc, WorkerPc.Fits]
  | getNull hpc hq =>
    refine ⟨rfl, rfl, rfl, ioQueueGet_closed hq, rfl, _, rfl, ?_⟩
    simp [hpc, WorkerPc.Fits]
  | noExtension hpc _ =>
    refine ⟨rfl, rfl, rfl, rfl, rfl, _, rfl, ?_⟩
    simp [hpc, WorkerPc.Fits]
  | langCacheGet hpc _ =>
    refine ⟨rfl, rfl, rfl, rfl, rfl, _, rfl, ?_⟩
    simp [hpc, WorkerPc.Fits]
  | scanned hpc =>
    refine ⟨rfl, rfl, rfl, rfl, rfl, _, rfl, ?_⟩
    simp [hpc, WorkerPc.Fits]
  | put hpc hq =>
    refine ⟨rfl, rfl, rfl, rfl, ioQueuePut_closed hq, _, rfl, ?_⟩
    simp [hpc, WorkerPc.Fits]
  | drain hpc hq =>
    refine ⟨rfl, rfl, rfl, ioQueueGet_closed hq, rfl, .drain, ?_, ?_⟩
    · rw [← hpc, Function.update_eq_self]
    · simp [hpc]
  | drainNull hpc hq =>
    refine ⟨rfl, rfl, rfl, ioQueueGet_closed hq, rfl, _, rfl, ?_⟩
    simp [hpc, WorkerPc.Fits]

/-- Everything a step of the merge thread does but for what passes through the
merge queue. -/
theorem MergeStep.moves {s s' : PipelineState cfg} (hs : MergeStep s s') :
    s'.main = s.main ∧ s'.worker = s.worker ∧ s'.freed = s.freed ∧ s'.queue = s.queue ∧
      s'.parsed = s.parsed ∧ s'.dropped = s.dropped ∧ s'.outQueue.closed = s.outQueue.closed ∧
      s.merge ≠ .notStarted ∧ s.merge ≠ .done ∧ s'.merge ≠ .notStarted := by
  cases hs with
  | collect hpc hq =>
    refine ⟨rfl, rfl, rfl, rfl, rfl, rfl, ioQueueGet_closed hq, ?_⟩
    simp [hpc]
  | collectNull hpc hq =>
    refine ⟨rfl, rfl, rfl, rfl, rfl, rfl, ioQueueGet_closed hq, ?_⟩
    simp [hpc]
  | write hpc => simp [hpc]

/-! ### The point of `main` and the other threads -/

/-- What it says of the other threads that `main` is at `pc`. -/
structure Phases (pc : MainPc) (s : PipelineState cfg) : Prop where
  in_range : pc.InRange cfg.jobs cfg.paths.length
  started : ∀ i : Fin cfg.jobs, s.worker i = .notStarted ↔ pc.created cfg.jobs ≤ i
  fits : ∀ i, (s.worker i).Fits (cfg.startUp i)
  joined : ∀ i : Fin cfg.jobs, (i : ℕ) < pc.joined cfg.jobs → s.worker i = .done
  merge_started : s.merge = .notStarted ↔ pc.mergeCreated = false
  merge_joined : pc.mergeJoined = true → s.merge = .done
  without_merge : pc.withoutMerge = true → cfg.mergeCreateFails = true
  queue_closed : s.queue.closed = pc.queueClosed
  out_closed : s.outQueue.closed = pc.outClosed
  freed : ∀ o, s.freed o = true → pc.freeing = true

theorem Phases.init : Phases (pipelineInit cfg).main (pipelineInit cfg) where
  in_range := Nat.zero_le _
  started := fun i => ⟨fun _ => Nat.zero_le _, fun _ => rfl⟩
  fits := fun _ => trivial
  joined := fun i hi => absurd hi (Nat.not_lt_zero _)
  merge_started := ⟨fun _ => rfl, fun _ => rfl⟩
  merge_joined := fun h => by cases h
  without_merge := fun h => by cases h
  queue_closed := rfl
  out_closed := rfl
  freed := fun o ho => by cases ho

theorem fits_update {f : Fin cfg.jobs → WorkerPc} {i : Fin cfg.jobs} {x : WorkerPc}
    (hx : x.Fits (cfg.startUp i)) (h : ∀ j, (f j).Fits (cfg.startUp j)) :
    ∀ j, (Function.update f i x j).Fits (cfg.startUp j) :=
  (Function.forall_update_iff f fun j x => x.Fits (cfg.startUp j)).mpr ⟨hx, fun j _ => h j⟩

theorem Phases.main {s s' : PipelineState cfg} (hcreate : ∀ i, cfg.createFails i = false)
    (hs : MainStep s s') (h : Phases s.main s) : Phases s'.main s' := by
  cases hs with
  | @create i hpc _ =>
    -- One more worker is started, and it is the one that `main` has come to.
    rw [hpc] at h
    refine { h with in_range := i.isLt, started := ?_, fits := ?_, joined := ?_ }
    · intro j
      by_cases hj : j = i
      · subst hj
        simp [MainPc.created]
      · have hne : (j : ℕ) ≠ i := fun he => hj (Fin.ext he)
        have hold := h.started j
        simp only [Function.update_of_ne hj, MainPc.created] at hold ⊢
        rw [hold]
        omega
    · exact fits_update (by simp [WorkerPc.Fits]) h.fits
    · intro j hj
      exact absurd hj (Nat.not_lt_zero _)
  | @createFail i _ hfail => exact absurd hfail (by simp [hcreate i])
  | created hpc =>
    rw [hpc] at h
    exact { h with in_range := trivial }
  | createMerge hpc _ =>
    rw [hpc] at h
    exact { h with
      in_range := Nat.zero_le _
      merge_started := by simp [MainPc.mergeCreated]
      merge_joined := fun hj => by cases hj }
  | createMergeFail hpc hfail =>
    -- Without a merge thread `main` goes on to join the workers.
    rw [hpc] at h
    exact { h with in_range := trivial, without_merge := fun _ => hfail }
  | put hpc hk hq =>
    rw [hpc] at h
    exact { h with in_range := hk, queue_closed := (ioQueuePut_closed hq).trans h.queue_closed }
  | enqueued hpc =>
    rw [hpc] at h
    exact { h with in_range := trivial }
  | closeQueue hpc =>
    rw [hpc] at h
    exact { h with in_range := Nat.zero_le _, queue_closed := rfl }
  | @join merged i hpc hdone =>
    -- The workers joined are those before, and the one that is done.
    rw [hpc] at h
    refine { h with in_range := i.isLt, joined := ?_ }
    intro j hj
    rcases Nat.lt_succ_iff_lt_or_eq.mp hj with hlt | heq
    · exact h.joined j hlt
    · rwa [Fin.ext heq]
  | joined hpc =>
    rw [hpc] at h
    exact { h with in_range := trivial }
  | closeOut hpc =>
    rw [hpc] at h
    exact { h with out_closed := rfl }
  | closeOutFail hpc =>
    -- Without a merge thread there is none to join before freeing.
    rw [hpc] at h
    exact { h with out_closed := rfl, freed := fun _ _ => rfl }
  | joinMerge hpc hdone =>
    rw [hpc] at h
    exact { h with merge_joined := fun _ => hdone, freed := fun _ _ => rfl }
  | abortCloseQueue hpc =>
    -- `main` is here only when a worker could not be created.
    rw [hpc] at h
    exact h.in_range.elim
  | abortCloseOut hpc =>
    rw [hpc] at h
    exact h.in_range.elim
  | freeOut hpc =>
    rw [hpc] at h
    exact { h with freed := fun _ _ => rfl }
  | freeQueue hpc =>
    rw [hpc] at h
    exact { h with freed := fun _ _ => rfl }
  | freeCache hpc =>
    rw [hpc] at h
    exact { h with freed := fun _ _ => rfl }

theorem Phases.worker {i : Fin cfg.jobs} {s s' : PipelineState cfg} (hs : WorkerStep i s s')
    (h : Phases s.main s) : Phases s'.main s' := by
  obtain ⟨hmain, hmerge, hfreed, hqueue, hout, x, hworker, hstarted, hdone, hx, hfits⟩ := hs.moves
  -- `main` has not moved, so only what is said of the worker is to be shown
  rw [hmain]
  refine ⟨h.in_range, ?_, ?_, ?_, hmerge ▸ h.merge_started, hmerge ▸ h.merge_joined,
    h.without_merge, hqueue.trans h.queue_closed, hout.trans h.out_closed, hfreed ▸ h.freed⟩
  · intro j
    rw [hworker]
    by_cases hj : j = i
    · subst hj
      have hold := h.started j
      simp_all
    · rw [Function.update_of_ne hj]
      exact h.started j
  · rw [hworker]
    exact fits_update (hfits (h.fits i)) h.fits
  · intro j hj
    have hold := h.joined j hj
    -- a worker that has been joined is done, and this one was not
    have hne : j ≠ i := fun he => hdone (he ▸ hold)
    rw [hworker, Function.update_of_ne hne]
    exact hold

theorem Phases.merge {s s' : PipelineState cfg} (hs : MergeStep s s') (h : Phases s.main s) :
    Phases s'.main s' := by
  obtain ⟨hmain, hworker, hfreed, hqueue, -, -, hout, hstarted, hdone, hstarted'⟩ := hs.moves
  rw [hmain]
  refine ⟨h.in_range, hworker ▸ h.started, hworker ▸ h.fits, hworker ▸ h.joined, ?_, ?_,
    h.without_merge, hqueue ▸ h.queue_closed, hout.trans h.out_closed, hfreed ▸ h.freed⟩
  · have hold := h.merge_started
    simp_all
  · intro hj
    exact absurd (h.merge_joined hj) hdone

theorem Phases.step {s s' : PipelineState cfg} {t : Tid cfg.jobs}
    (hcreate : ∀ i, cfg.createFails i = false) (hs : PipelineStep s t s') (h : Phases s.main s) :
    Phases s'.main s' := by
  cases hs with
  | main hs => exact h.main hcreate hs
  | worker _ hs => exact h.worker hs
  | merge _ hs => exact h.merge hs

theorem phases_reachable (hcreate : ∀ i, cfg.createFails i = false) {s : PipelineState cfg}
    (h : (pipelineLts cfg).Reachable s) : Phases s.main s := by
  refine h.invariant (I := fun s => Phases s.main s) ?_ fun _ _ _ hp hs => hp.step hcreate hs
  rintro s rfl
  exact Phases.init

/-! ### The rings -/

/-- Both rings are well formed and keep their capacities. -/
structure Rings (s : PipelineState cfg) : Prop where
  queue_wf : s.queue.Wf
  queue_cap : s.queue.cap = queueCapacity
  out_wf : s.outQueue.Wf
  out_cap : s.outQueue.cap = cfg.jobs

theorem Rings.init (hjobs : 1 ≤ cfg.jobs) : Rings (pipelineInit cfg) where
  queue_wf := ioQueueNew_wf (by decide)
  queue_cap := rfl
  out_wf := ioQueueNew_wf hjobs
  out_cap := rfl

theorem Rings.step {s s' : PipelineState cfg} {t : Tid cfg.jobs} (hs : PipelineStep s t s')
    (h : Rings s) : Rings s' := by
  cases hs with
  | main hs =>
    cases hs with
    | put _ _ hq =>
      exact { h with
        queue_wf := (h.queue_wf.put hq).1
        queue_cap := (ioQueuePut_cap hq).trans h.queue_cap }
    | closeQueue _ => exact { h with queue_wf := h.queue_wf.close }
    | closeOut _ => exact { h with out_wf := h.out_wf.close }
    | closeOutFail _ => exact { h with out_wf := h.out_wf.close }
    | abortCloseQueue _ => exact { h with queue_wf := h.queue_wf.close }
    | abortCloseOut _ => exact { h with out_wf := h.out_wf.close }
    | _ => exact { h with }
  | worker _ hs =>
    cases hs with
    | get _ hq | getNull _ hq | drain _ hq | drainNull _ hq =>
      exact { h with
        queue_wf := h.queue_wf.get hq
        queue_cap := (ioQueueGet_cap hq).trans h.queue_cap }
    | put _ hq =>
      exact { h with
        out_wf := (h.out_wf.put hq).1
        out_cap := (ioQueuePut_cap hq).trans h.out_cap }
    | start _ | noExtension _ _ | langCacheGet _ _ | scanned _ => exact { h with }
  | merge _ hs =>
    cases hs with
    | collect _ hq | collectNull _ hq =>
      exact { h with
        out_wf := h.out_wf.get hq
        out_cap := (ioQueueGet_cap hq).trans h.out_cap }
    | write _ => exact { h with }

/-! ### The paths -/

/-- The paths all workers have handed to `parse_file_lines`. -/
def PipelineState.parsedPaths (s : PipelineState cfg) : Multiset ℕ :=
  tally (fun l : List ℕ => (l : Multiset ℕ)) s.parsed

/-- A worker whose start-up ended like this has found the work queue closed and drained. -/
def WorkerPc.PastQueue (u : StartUp) : WorkerPc → Prop
  | .put => True
  | .done => u.TakesPaths
  | _ => False

/-- Every path put is on the work queue, parsed or freed unparsed, and the queue
is over with once a worker has left its loop. -/
structure Delivery (pc : MainPc) (s : PipelineState cfg) : Prop where
  conserved : (s.queue.items : Multiset ℕ) + s.dropped + s.parsedPaths
    = Multiset.range (pc.putCount cfg.paths.length)
  past_queue : ∀ i, (s.worker i).PastQueue (cfg.startUp i) →
    s.queue.closed = true ∧ s.queue.items = []
  dropped : s.dropped ≠ [] → ∃ i, cfg.startUp i = .vecFails

theorem Delivery.init : Delivery (pipelineInit cfg).main (pipelineInit cfg) where
  conserved := by
    simp [PipelineState.parsedPaths, tally, pipelineInit, MainPc.putCount]
  past_queue := fun i hi => hi.elim
  dropped := fun h => absurd rfl h

/-- Only the work queue, what is parsed and freed, and the workers that are past
the queue matter for the paths. -/
theorem Delivery.of_same {pc pc' : MainPc} {s s' : PipelineState cfg} (h : Delivery pc s)
    (hcount : pc'.putCount cfg.paths.length = pc.putCount cfg.paths.length)
    (hitems : s'.queue.items = s.queue.items)
    (hclosed : s.queue.closed = true → s'.queue.closed = true)
    (hparsed : s'.parsed = s.parsed) (hdropped : s'.dropped = s.dropped)
    (hpast : ∀ i, (s'.worker i).PastQueue (cfg.startUp i) →
      (s.worker i).PastQueue (cfg.startUp i) ∨ s.queue.closed = true ∧ s.queue.items = []) :
    Delivery pc' s' := by
  refine ⟨?_, ?_, hdropped ▸ h.dropped⟩
  · rw [hcount, hitems, hdropped, PipelineState.parsedPaths, hparsed]
    exact h.conserved
  · intro i hi
    rw [hitems]
    rcases hpast i hi with hold | hdrained
    · exact ⟨hclosed (h.past_queue i hold).1, (h.past_queue i hold).2⟩
    · exact ⟨hclosed hdrained.1, hdrained.2⟩

/-- When one worker moves, only that one can have come past the queue. -/
theorem pastQueue_update {f : Fin cfg.jobs → WorkerPc} {i : Fin cfg.jobs} {x : WorkerPc}
    {P : Prop} (hx : x.PastQueue (cfg.startUp i) → P) (j : Fin cfg.jobs)
    (hj : (Function.update f i x j).PastQueue (cfg.startUp j)) :
    (f j).PastQueue (cfg.startUp j) ∨ P := by
  by_cases hji : j = i
  · subst hji
    rw [Function.update_self] at hj
    exact Or.inr (hx hj)
  · rw [Function.update_of_ne hji] at hj
    exact Or.inl hj

theorem StartUp.not_pastQueue_next (u : StartUp) : ¬ u.next.PastQueue u := by
  cases u <;> exact id

theorem Delivery.main {s s' : PipelineState cfg} (hs : MainStep s s') (hp : Phases s.main s)
    (hr : Rings s) (h : Delivery s.main s) : Delivery s'.main s' := by
  cases hs with
  | @create i hpc _ =>
    rw [hpc] at h
    exact h.of_same rfl rfl id rfl rfl (pastQueue_update fun hx => hx.elim)
  | @put k q hpc hk hq =>
    rw [hpc] at h hp
    have hopen : s.queue.closed = false := hp.queue_closed
    have hitems := (hr.queue_wf.put hq).2
    refine ⟨?_, ?_, h.dropped⟩
    · show (q.items : Multiset ℕ) + s.dropped + s.parsedPaths = Multiset.range (k + 1)
      have hold : (s.queue.items : Multiset ℕ) + s.dropped + s.parsedPaths = Multiset.range k :=
        h.conserved
      rw [hitems, Multiset.range_succ, ← hold, ← Multiset.coe_add, Multiset.coe_singleton,
        ← Multiset.singleton_add]
      ac_rfl
    · -- nobody has left its loop while the queue is still open
      intro j hj
      have hclosed := (h.past_queue j hj).1
      rw [hopen] at hclosed
      cases hclosed
  | closeQueue hpc =>
    rw [hpc] at h
    exact h.of_same rfl rfl (fun _ => rfl) rfl rfl fun _ => Or.inl
  | abortCloseQueue hpc =>
    rw [hpc] at hp
    exact hp.in_range.elim
  | abortCloseOut hpc =>
    rw [hpc] at hp
    exact hp.in_range.elim
  | createFail hpc _ | created hpc | createMerge hpc _ | createMergeFail hpc _ | enqueued hpc
  | join hpc _ | joined hpc | closeOut hpc | closeOutFail hpc | joinMerge hpc _ | freeOut hpc
  | freeQueue hpc | freeCache hpc =>
    rw [hpc] at h
    exact h.of_same rfl rfl id rfl rfl fun _ => Or.inl

/-- One more path parsed by worker `i`. -/
theorem parsedPaths_append (parsed : Fin cfg.jobs → List ℕ) (i : Fin cfg.jobs) (k : ℕ) :
    tally (fun l : List ℕ => (l : Multiset ℕ)) (Function.update parsed i (parsed i ++ [k]))
      = tally (fun l : List ℕ => (l : Multiset ℕ)) parsed + {k} := by
  have h := tally_update (fun l : List ℕ => (l : Multiset ℕ)) parsed i (parsed i ++ [k])
  simp only [← Multiset.coe_add, Multiset.coe_singleton] at h
  rw [← add_left_inj ((parsed i : List ℕ) : Multiset ℕ), h]
  ac_rfl

theorem Delivery.worker {i : Fin cfg.jobs} {s s' : PipelineState cfg} (hs : WorkerStep i s s')
    (hp : Phases s.main s) (hr : Rings s) (h : Delivery s.main s) : Delivery s'.main s' := by
  cases hs with
  | start hpc =>
    refine h.of_same rfl rfl id rfl rfl (pastQueue_update ?_)
    intro hx
    exact absurd hx (StartUp.not_pastQueue_next _)
  | @get k q hpc hq =>
    have hitems := (hr.queue_wf.get_some hq).2
    refine ⟨?_, ?_, h.dropped⟩
    · have hold := h.conserved
      rw [hitems, ← Multiset.cons_coe, ← Multiset.singleton_add] at hold
      rw [← hold, PipelineState.parsedPaths, parsedPaths_append, PipelineState.parsedPaths]
      ac_rfl
    · -- the queue held a path, so nobody had come past it
      intro j hj
      rcases pastQueue_update (P := False) id j hj with hold | hno
      · have hempty := (h.past_queue j hold).2
        rw [hitems] at hempty
        cases hempty
      · exact hno.elim
  | @getNull q hpc hq =>
    obtain ⟨hclosed, hcount, rfl⟩ := hr.queue_wf.get_null hq
    have hempty := hr.queue_wf.items_eq_nil_iff.mpr hcount
    exact h.of_same rfl rfl id rfl rfl (pastQueue_update fun _ => ⟨hclosed, hempty⟩)
  | noExtension hpc _ | langCacheGet hpc _ | scanned hpc =>
    exact h.of_same rfl rfl id rfl rfl (pastQueue_update fun hx => hx.elim)
  | put hpc hq =>
    have hpast := h.past_queue i (by rw [hpc]; trivial)
    exact h.of_same rfl rfl id rfl rfl (pastQueue_update fun _ => hpast)
  | @drain k q hpc hq =>
    have hitems := (hr.queue_wf.get_some hq).2
    refine ⟨?_, ?_, fun _ => ⟨i, ?_⟩⟩
    · have hold := h.conserved
      rw [hitems, ← Multiset.cons_coe, ← Multiset.singleton_add] at hold
      rw [← hold, ← Multiset.coe_add, Multiset.coe_singleton]
      show _ + _ + s.parsedPaths = _
      ac_rfl
    · intro j hj
      have hempty := (h.past_queue j hj).2
      rw [hitems] at hempty
      cases hempty
    · have hfits := hp.fits i
      rwa [hpc] at hfits
  | @drainNull q hpc hq =>
    obtain ⟨hclosed, hcount, rfl⟩ := hr.queue_wf.get_null hq
    have hempty := hr.queue_wf.items_eq_nil_iff.mpr hcount
    exact h.of_same rfl rfl id rfl rfl (pastQueue_update fun _ => ⟨hclosed, hempty⟩)

theorem Delivery.step {s s' : PipelineState cfg} {t : Tid cfg.jobs} (hs : PipelineStep s t s')
    (hp : Phases s.main s) (hr : Rings s) (h : Delivery s.main s) : Delivery s'.main s' := by
  cases hs with
  | main hs => exact h.main hs hp hr
  | worker _ hs => exact h.worker hs hp hr
  | merge _ hs =>
    obtain ⟨hmain, hworker, -, hqueue, hparsed, hdropped, -⟩ := hs.moves
    rw [hmain]
    apply h.of_same rfl (by rw [hqueue]) (by rw [hqueue]; exact id) hparsed hdropped
    rw [hworker]
    intro _
    exact Or.inl

/-! ### The vectors -/

/-- Each worker that started up puts its vector once, when it is done, and the
merge thread leaves its loop with all of them. -/
structure Collection (s : PipelineState cfg) : Prop where
  nodup : (s.outQueue.items ++ s.batches).Nodup
  mem_iff : ∀ i, i ∈ s.outQueue.items ++ s.batches ↔
    s.worker i = .done ∧ cfg.startUp i = .ok
  merge_past : s.merge = .write ∨ s.merge = .done →
    s.outQueue.closed = true ∧ s.outQueue.items = []

theorem Collection.init : Collection (pipelineInit cfg) where
  nodup := List.nodup_nil
  mem_iff := by simp [pipelineInit]
  merge_past := by simp [pipelineInit]

/-- Moving a worker that is not done, and does not get done with a vector, leaves
the set of workers with a vector put alone. -/
theorem done_update_iff {f : Fin cfg.jobs → WorkerPc} {i : Fin cfg.jobs} {x : WorkerPc}
    (hf : f i ≠ .done) (hx : ¬ (x = .done ∧ cfg.startUp i = .ok)) (j : Fin cfg.jobs) :
    (Function.update f i x j = .done ∧ cfg.startUp j = .ok)
      ↔ (f j = .done ∧ cfg.startUp j = .ok) := by
  by_cases hji : j = i
  · subst hji
    rw [Function.update_self]
    exact iff_of_false hx fun h => hf h.1
  · rw [Function.update_of_ne hji]

theorem Collection.of_same {s s' : PipelineState cfg} (h : Collection s)
    (hperm : (s'.outQueue.items ++ s'.batches).Perm (s.outQueue.items ++ s.batches))
    (hdone : ∀ i, (s'.worker i = .done ∧ cfg.startUp i = .ok)
      ↔ (s.worker i = .done ∧ cfg.startUp i = .ok))
    (hmerge : s'.merge = .write ∨ s'.merge = .done →
      s'.outQueue.closed = true ∧ s'.outQueue.items = []) : Collection s' where
  nodup := hperm.nodup_iff.mpr h.nodup
  mem_iff := fun i => by rw [hperm.mem_iff, h.mem_iff, hdone]
  merge_past := hmerge

theorem Collection.main {s s' : PipelineState cfg} (hs : MainStep s s') (hp : Phases s.main s)
    (h : Collection s) : Collection s' := by
  cases hs with
  | @create i hpc _ =>
    rw [hpc] at hp
    have hfresh : s.worker i = .notStarted := (hp.started i).mpr le_rfl
    exact h.of_same (List.Perm.refl _)
      (done_update_iff (by simp [hfresh]) (by simp)) h.merge_past
  | createMerge hpc _ =>
    exact h.of_same (List.Perm.refl _) (fun _ => Iff.rfl) (by simp)
  | closeOut hpc | closeOutFail hpc | abortCloseOut hpc =>
    refine h.of_same (List.Perm.refl _) (fun _ => Iff.rfl) ?_
    intro hm
    exact ⟨rfl, (h.merge_past hm).2⟩
  | createFail _ _ | created _ | createMergeFail _ _ | put _ _ _ | enqueued _ | closeQueue _
  | join _ _ | joined _ | joinMerge _ _ | abortCloseQueue _ | freeOut _ | freeQueue _
  | freeCache _ => exact h.of_same (List.Perm.refl _) (fun _ => Iff.rfl) h.merge_past

theorem Collection.worker {i : Fin cfg.jobs} {s s' : PipelineState cfg} (hs : WorkerStep i s s')
    (hp : Phases s.main s) (hr : Rings s) (h : Collection s) : Collection s' := by
  cases hs with
  | start hpc =>
    refine h.of_same (List.Perm.refl _) (done_update_iff (by simp [hpc]) ?_) h.merge_past
    intro hx
    rw [hx.2] at hx
    cases hx.1
  | get hpc _ | getNull hpc _ | noExtension hpc _ | langCacheGet hpc _ | scanned hpc =>
    exact h.of_same (List.Perm.refl _) (done_update_iff (by simp [hpc]) (by simp)) h.merge_past
  | drain hpc _ => exact h.of_same (List.Perm.refl _) (fun _ => Iff.rfl) h.merge_past
  | drainNull hpc _ =>
    -- It is done, but it had no vector to put.
    have hfits := hp.fits i
    rw [hpc] at hfits
    have hfails : cfg.startUp i = .vecFails := hfits
    exact h.of_same (List.Perm.refl _)
      (done_update_iff (by simp [hpc]) (by simp [hfails])) h.merge_past
  | @put q hpc hq =>
    -- The batch is a new one, for no batch is of a worker that is still to put its own.
    have hitems := (hr.out_wf.put hq).2
    have hok : cfg.startUp i = .ok := by
      have hfits := hp.fits i
      rwa [hpc] at hfits
    have hnot : i ∉ s.outQueue.items ++ s.batches := by
      rw [h.mem_iff, hpc]
      simp
    have hperm : (q.items ++ s.batches).Perm (i :: (s.outQueue.items ++ s.batches)) := by
      rw [hitems, List.append_assoc]
      exact List.perm_middle
    refine ⟨hperm.nodup_iff.mpr (List.nodup_cons.mpr ⟨hnot, h.nodup⟩), ?_, ?_⟩
    · intro j
      rw [hperm.mem_iff, List.mem_cons, h.mem_iff]
      by_cases hji : j = i
      · subst hji
        simp [hok]
      · simp [hji]
    · -- the merge queue is closed only after every worker is done
      intro hm
      have hclosed := hp.out_closed.symm.trans (h.merge_past hm).1
      have hjoined : s.main.joined cfg.jobs = cfg.jobs := by
        cases hmain : s.main <;> simp_all [MainPc.outClosed, MainPc.joined]
      have hdone := hp.joined i (hjoined.symm ▸ i.isLt)
      rw [hpc] at hdone
      cases hdone

theorem Collection.merge {s s' : PipelineState cfg} (hs : MergeStep s s') (hr : Rings s)
    (h : Collection s) : Collection s' := by
  cases hs with
  | @collect i q hpc hq =>
    have hitems := (hr.out_wf.get_some hq).2
    refine h.of_same ?_ (fun _ => Iff.rfl) (by simp [hpc])
    rw [hitems, ← List.append_assoc]
    exact List.perm_append_singleton i _
  | @collectNull q hpc hq =>
    obtain ⟨hclosed, hcount, rfl⟩ := hr.out_wf.get_null hq
    have hempty := hr.out_wf.items_eq_nil_iff.mpr hcount
    exact h.of_same (List.Perm.refl _) (fun _ => Iff.rfl) fun _ => ⟨hclosed, hempty⟩
  | write hpc =>
    exact h.of_same (List.Perm.refl _) (fun _ => Iff.rfl) fun _ => h.merge_past (Or.inl hpc)

theorem Collection.step {s s' : PipelineState cfg} {t : Tid cfg.jobs} (hs : PipelineStep s t s')
    (hp : Phases s.main s) (hr : Rings s) (h : Collection s) : Collection s' := by
  cases hs with
  | main hs => exact h.main hs hp
  | worker _ hs => exact h.worker hs hp hr
  | merge _ hs => exact h.merge hs hr

/-! ### All of it -/

/-- The invariant of the pipeline. -/
structure PipelineInv (s : PipelineState cfg) : Prop where
  phases : Phases s.main s
  rings : Rings s
  delivery : Delivery s.main s
  collection : Collection s

theorem PipelineInv.step {s s' : PipelineState cfg} {t : Tid cfg.jobs}
    (hcreate : ∀ i, cfg.createFails i = false) (hs : PipelineStep s t s') (h : PipelineInv s) :
    PipelineInv s' where
  phases := h.phases.step hcreate hs
  rings := h.rings.step hs
  delivery := h.delivery.step hs h.phases h.rings
  collection := h.collection.step hs h.phases h.rings

/-- **The invariant holds in every reachable state.** -/
theorem pipelineInv_reachable (hjobs : 1 ≤ cfg.jobs) (hcreate : ∀ i, cfg.createFails i = false)
    {s : PipelineState cfg} (h : (pipelineLts cfg).Reachable s) : PipelineInv s := by
  refine h.invariant ?_ fun _ _ _ hinv hs => hinv.step hcreate hs
  rintro s rfl
  exact ⟨Phases.init, Rings.init hjobs, Delivery.init, Collection.init⟩

/-! ### What the invariant says of an execution -/

section Consequences

variable {s : PipelineState cfg}

theorem PipelineInv.of_joined (h : PipelineInv s) (hmain : s.main.joined cfg.jobs = cfg.jobs)
    (i : Fin cfg.jobs) : s.worker i = .done :=
  h.phases.joined i (hmain.symm ▸ i.isLt)

/-- No worker ever finds the merge queue full. -/
theorem PipelineInv.out_put (h : PipelineInv s) {i : Fin cfg.jobs} (hpc : s.worker i = .put) :
    ∃ q, ioQueuePut s.outQueue i = some q := by
  have hnot : i ∉ s.outQueue.items ++ s.batches := by
    rw [h.collection.mem_iff, hpc]
    simp
  have hlt : (i :: s.outQueue.items).length ≤ cfg.jobs := by
    have hnodup : (i :: s.outQueue.items).Nodup :=
      List.nodup_cons.mpr ⟨fun hi => hnot (List.mem_append_left _ hi),
        (List.nodup_append.mp h.collection.nodup).1⟩
    simpa using hnodup.length_le_card
  exact h.rings.out_wf.exists_put (by rw [h.rings.out_cap]; exact hlt) i

theorem PipelineInv.length_batches_le (h : PipelineInv s) : s.batches.length ≤ cfg.jobs := by
  simpa using (List.nodup_append.mp h.collection.nodup).2.1.length_le_card

/-- With a merge thread, `main` returns 0 if it returns. -/
theorem PipelineInv.exited_zero (h : PipelineInv s) (hmerge : cfg.mergeCreateFails = false)
    (hexit : s.Exited) : s.main = .exited 0 := by
  obtain ⟨rc, hmain⟩ := hexit
  by_cases hrc : rc = 0
  · rw [hmain, hrc]
  · have hfails := h.phases.without_merge (by simp [hmain, MainPc.withoutMerge, hrc])
    simp [hmerge] at hfails

/-- Nothing is lost on the way: once `main` has returned, every path has
been parsed or freed by a worker without a vector. -/
theorem PipelineInv.conserved_of_exited (h : PipelineInv s) (hmerge : cfg.mergeCreateFails = false)
    (htakes : ∃ i, (cfg.startUp i).TakesPaths) (hexit : s.Exited) :
    (s.dropped : Multiset ℕ) + s.parsedPaths = Multiset.range cfg.paths.length := by
  have hmain := h.exited_zero hmerge hexit
  obtain ⟨i, htakes⟩ := htakes
  have hdone : s.worker i = .done := h.of_joined (by simp [hmain, MainPc.joined]) i
  have hitems := (h.delivery.past_queue i (by rw [hdone]; exact htakes)).2
  have hconserved := h.delivery.conserved
  rw [hitems, hmain] at hconserved
  simpa [MainPc.putCount] using hconserved

/-- When `main` has returned, the merge thread has the vector of each worker that
started up. -/
theorem PipelineInv.mem_batches_of_exited (h : PipelineInv s)
    (hmerge : cfg.mergeCreateFails = false) (hexit : s.Exited) (i : Fin cfg.jobs) :
    i ∈ s.batches ↔ cfg.startUp i = .ok := by
  have hmain := h.exited_zero hmerge hexit
  have hdone : s.worker i = .done := h.of_joined (by simp [hmain, MainPc.joined]) i
  have hjoined : s.merge = .done := h.phases.merge_joined (by simp [hmain, MainPc.mergeJoined])
  have hempty := (h.collection.merge_past (Or.inr hjoined)).2
  have hmem := h.collection.mem_iff i
  rw [hempty, List.nil_append, hdone] at hmem
  simpa using hmem

end Consequences

end Tsag
