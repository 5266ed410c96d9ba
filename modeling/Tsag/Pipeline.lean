import Tsag.IoQueue
import Tsag.Lang
import Tsag.Lib.CInt
import Tsag.Lib.Census
import Tsag.Lib.Transition

/-!
# The thread pipeline

`main` creates the workers and the merge thread, puts every path on the work
queue, closes it and joins the workers; each worker takes paths until the queue
is closed and drained and then puts its vector on the merge queue; the merge
thread collects the vectors.  One step is one critical section of a queue, one
call of a thread function or one piece of code that touches nothing shared.

A path on the queue is a pointer of its own, so it is modelled by the number of
the put that put it there; a vector on the merge queue is modelled by the worker
it belongs to.

## Main definitions

* `Config` — the worker count, the paths to put, and what fails.
* `MainPc`, `WorkerPc`, `MergePc` — where each thread is; `PipelineState` — all of it.
* `PipelineStep`, `pipelineLts` — the program, one interleaved step at a time.
* `uses` — the shared object the next step of a thread operates on.
* `Config.ofStartUp`, `Config.healthy` — all threads created, all workers started.
-/

namespace Tsag

/-- How the start-up of a worker ends. -/
inductive StartUp
  | ok
  /-- `ts_parser_new` returns `NULL`. -/
  | parserFails
  /-- `ts_query_cursor_new` returns `NULL`. -/
  | cursorFails
  /-- `line_vec_new` returns `NULL`. -/
  | vecFails
  deriving DecidableEq, Repr

/-- A worker that ends its start-up like this goes on to take from the work queue. -/
def StartUp.TakesPaths : StartUp → Prop
  | .ok | .vecFails => True
  | .parserFails | .cursorFails => False

instance : DecidablePred StartUp.TakesPaths := fun u =>
  match u with
  | .ok | .vecFails => isTrue trivial
  | .parserFails | .cursorFails => isFalse id

/-- What one execution of the program is given. -/
structure Config where
  /-- `jobs`, the number of workers. -/
  jobs : ℕ
  /-- What the calls of `enqueue_path` put on the work queue, in order. -/
  paths : List CStr
  startUp : Fin jobs → StartUp
  /-- `pthread_create` fails for this worker. -/
  createFails : Fin jobs → Bool
  /-- `pthread_create` fails for the merge thread. -/
  mergeCreateFails : Bool

/-- The objects threads share and `main` frees. -/
inductive SharedObj
  | queue
  | outQueue
  | langCache
  deriving DecidableEq, Repr

/-! ### Where the threads are -/

/-- Where `main` is.  The flag of the points after the paths have been put says
whether there is a merge thread: without one, `main` is on its way out. -/
inductive MainPc
  /-- In the loop that creates the workers. -/
  | create (i : ℕ)
  | createMerge
  /-- In `enqueue_path`, with `k` paths put. -/
  | enqueue (k : ℕ)
  | closeQueue (merged : Bool)
  /-- In the loop that joins the workers. -/
  | join (merged : Bool) (i : ℕ)
  | closeOut (merged : Bool)
  | joinMerge
  /-- A worker could not be created. -/
  | abortCloseQueue
  | abortCloseOut
  | freeOut (rc : ℕ)
  | freeQueue (rc : ℕ)
  | freeCache (rc : ℕ)
  /-- `main` has returned `rc`, and with it the process has ended. -/
  | exited (rc : ℕ)
  deriving DecidableEq, Repr

/-- Where a worker is. -/
inductive WorkerPc
  | notStarted
  /-- Before `ts_parser_new`, `ts_query_cursor_new` and `line_vec_new`. -/
  | start
  /-- At `io_queue_get(a->q)` of the parse loop. -/
  | get
  /-- In `parse_file_lines` with path `k`, before `lang_cache_get`. -/
  | parse (k : ℕ)
  /-- In `parse_file_lines` with path `k`, past `lang_cache_get`. -/
  | scan (k : ℕ)
  /-- Past the sort, at `io_queue_put(a->outq, vec)`. -/
  | put
  /-- At `io_queue_get(a->q)` of the loop that frees paths for want of a vector. -/
  | drain
  | done
  deriving DecidableEq, Repr

/-- Where the merge thread is. -/
inductive MergePc
  | notStarted
  /-- At `io_queue_get(a->outq)` of the loop that collects the batches. -/
  | collect
  /-- Merging, with nothing shared. -/
  | write
  | done
  deriving DecidableEq, Repr

/-- The state of the process. -/
structure PipelineState (cfg : Config) where
  main : MainPc
  worker : Fin cfg.jobs → WorkerPc
  merge : MergePc
  queue : IoQueue ℕ
  outQueue : IoQueue (Fin cfg.jobs)
  /-- `batches[0 .. batch_count)`. -/
  batches : List (Fin cfg.jobs)
  /-- The paths each worker has handed to `parse_file_lines`, in order. -/
  parsed : Fin cfg.jobs → List ℕ
  /-- The paths freed by workers without a vector, in order. -/
  dropped : List ℕ
  /-- What `main` has freed. -/
  freed : SharedObj → Bool

/-- The threads. -/
inductive Tid (jobs : ℕ)
  | main
  | worker (i : Fin jobs)
  | merge
  deriving DecidableEq, Repr

/-- Where a worker is once its start-up is over. -/
def StartUp.next : StartUp → WorkerPc
  | .ok => .get
  | .parserFails | .cursorFails => .done
  | .vecFails => .drain

/-! ### The steps -/

variable {cfg : Config}

/-- One step of `main`. -/
inductive MainStep : PipelineState cfg → PipelineState cfg → Prop
  | create {s : PipelineState cfg} {i : Fin cfg.jobs} (hpc : s.main = .create i)
      (hok : cfg.createFails i = false) :
      MainStep s { s with
        main := .create (i + 1)
        worker := Function.update s.worker i .start }
  | createFail {s : PipelineState cfg} {i : Fin cfg.jobs} (hpc : s.main = .create i)
      (hfail : cfg.createFails i = true) : MainStep s { s with main := .abortCloseQueue }
  | created {s : PipelineState cfg} (hpc : s.main = .create cfg.jobs) :
      MainStep s { s with main := .createMerge }
  | createMerge {s : PipelineState cfg} (hpc : s.main = .createMerge)
      (hok : cfg.mergeCreateFails = false) :
      MainStep s { s with main := .enqueue 0, merge := .collect }
  | createMergeFail {s : PipelineState cfg} (hpc : s.main = .createMerge)
      (hfail : cfg.mergeCreateFails = true) : MainStep s { s with main := .closeQueue false }
  | put {s : PipelineState cfg} {k : ℕ} {q : IoQueue ℕ} (hpc : s.main = .enqueue k)
      (hk : k < cfg.paths.length) (hq : ioQueuePut s.queue k = some q) :
      MainStep s { s with main := .enqueue (k + 1), queue := q }
  | enqueued {s : PipelineState cfg} (hpc : s.main = .enqueue cfg.paths.length) :
      MainStep s { s with main := .closeQueue true }
  | closeQueue {s : PipelineState cfg} {merged : Bool} (hpc : s.main = .closeQueue merged) :
      MainStep s { s with main := .join merged 0, queue := ioQueueClose s.queue }
  | join {s : PipelineState cfg} {merged : Bool} {i : Fin cfg.jobs} (hpc : s.main = .join merged i)
      (hdone : s.worker i = .done) : MainStep s { s with main := .join merged (i + 1) }
  | joined {s : PipelineState cfg} {merged : Bool} (hpc : s.main = .join merged cfg.jobs) :
      MainStep s { s with main := .closeOut merged }
  | closeOut {s : PipelineState cfg} (hpc : s.main = .closeOut true) :
      MainStep s { s with main := .joinMerge, outQueue := ioQueueClose s.outQueue }
  | closeOutFail {s : PipelineState cfg} (hpc : s.main = .closeOut false) :
      MainStep s { s with main := .freeOut 1, outQueue := ioQueueClose s.outQueue }
  | joinMerge {s : PipelineState cfg} (hpc : s.main = .joinMerge) (hdone : s.merge = .done) :
      MainStep s { s with main := .freeOut 0 }
  -- the workers already created are not joined here
  | abortCloseQueue {s : PipelineState cfg} (hpc : s.main = .abortCloseQueue) :
      MainStep s { s with main := .abortCloseOut, queue := ioQueueClose s.queue }
  | abortCloseOut {s : PipelineState cfg} (hpc : s.main = .abortCloseOut) :
      MainStep s { s with main := .freeOut 1, outQueue := ioQueueClose s.outQueue }
  | freeOut {s : PipelineState cfg} {rc : ℕ} (hpc : s.main = .freeOut rc) :
      MainStep s { s with
        main := .freeQueue rc
        freed := Function.update s.freed .outQueue true }
  | freeQueue {s : PipelineState cfg} {rc : ℕ} (hpc : s.main = .freeQueue rc) :
      MainStep s { s with
        main := .freeCache rc
        freed := Function.update s.freed .queue true }
  | freeCache {s : PipelineState cfg} {rc : ℕ} (hpc : s.main = .freeCache rc) :
      MainStep s { s with
        main := .exited rc
        freed := Function.update s.freed .langCache true }

/-- One step of worker `i`. -/
inductive WorkerStep (i : Fin cfg.jobs) : PipelineState cfg → PipelineState cfg → Prop
  | start {s : PipelineState cfg} (hpc : s.worker i = .start) :
      WorkerStep i s { s with worker := Function.update s.worker i (cfg.startUp i).next }
  | get {s : PipelineState cfg} {k : ℕ} {q : IoQueue ℕ} (hpc : s.worker i = .get)
      (hq : ioQueueGet s.queue = some (some k, q)) :
      WorkerStep i s { s with
        worker := Function.update s.worker i (.parse k)
        queue := q
        parsed := Function.update s.parsed i (s.parsed i ++ [k]) }
  | getNull {s : PipelineState cfg} {q : IoQueue ℕ} (hpc : s.worker i = .get)
      (hq : ioQueueGet s.queue = some (none, q)) :
      WorkerStep i s { s with worker := Function.update s.worker i .put, queue := q }
  -- `parse_file_lines` returns at once when the path has no extension
  | noExtension {s : PipelineState cfg} {k : ℕ} (hpc : s.worker i = .parse k)
      (hext : (cfg.paths[k]?).bind findExtension = none) :
      WorkerStep i s { s with worker := Function.update s.worker i .get }
  | langCacheGet {s : PipelineState cfg} {k : ℕ} (hpc : s.worker i = .parse k)
      (hext : (cfg.paths[k]?).bind findExtension ≠ none) :
      WorkerStep i s { s with worker := Function.update s.worker i (.scan k) }
  | scanned {s : PipelineState cfg} {k : ℕ} (hpc : s.worker i = .scan k) :
      WorkerStep i s { s with worker := Function.update s.worker i .get }
  | put {s : PipelineState cfg} {q : IoQueue (Fin cfg.jobs)} (hpc : s.worker i = .put)
      (hq : ioQueuePut s.outQueue i = some q) :
      WorkerStep i s { s with worker := Function.update s.worker i .done, outQueue := q }
  | drain {s : PipelineState cfg} {k : ℕ} {q : IoQueue ℕ} (hpc : s.worker i = .drain)
      (hq : ioQueueGet s.queue = some (some k, q)) :
      WorkerStep i s { s with queue := q, dropped := s.dropped ++ [k] }
  | drainNull {s : PipelineState cfg} {q : IoQueue ℕ} (hpc : s.worker i = .drain)
      (hq : ioQueueGet s.queue = some (none, q)) :
      WorkerStep i s { s with worker := Function.update s.worker i .done, queue := q }

/-- One step of the merge thread. -/
inductive MergeStep : PipelineState cfg → PipelineState cfg → Prop
  | collect {s : PipelineState cfg} {i : Fin cfg.jobs} {q : IoQueue (Fin cfg.jobs)}
      (hpc : s.merge = .collect) (hq : ioQueueGet s.outQueue = some (some i, q)) :
      MergeStep s { s with outQueue := q, batches := s.batches ++ [i] }
  | collectNull {s : PipelineState cfg} {q : IoQueue (Fin cfg.jobs)} (hpc : s.merge = .collect)
      (hq : ioQueueGet s.outQueue = some (none, q)) :
      MergeStep s { s with merge := .write, outQueue := q }
  | write {s : PipelineState cfg} (hpc : s.merge = .write) : MergeStep s { s with merge := .done }

/-- `main` has returned. -/
def PipelineState.Exited (s : PipelineState cfg) : Prop := ∃ rc, s.main = .exited rc

/-- One step of one thread of a process that has not ended. -/
inductive PipelineStep : PipelineState cfg → Tid cfg.jobs → PipelineState cfg → Prop
  | main {s s' : PipelineState cfg} (h : MainStep s s') : PipelineStep s .main s'
  | worker {s s' : PipelineState cfg} {i : Fin cfg.jobs} (hrun : ¬ s.Exited)
      (h : WorkerStep i s s') : PipelineStep s (.worker i) s'
  | merge {s s' : PipelineState cfg} (hrun : ¬ s.Exited) (h : MergeStep s s') :
      PipelineStep s .merge s'

/-- The state in which `main` is about to create its first worker. -/
def pipelineInit (cfg : Config) : PipelineState cfg where
  main := .create 0
  worker := fun _ => .notStarted
  merge := .notStarted
  queue := ioQueueNew ℕ queueCapacity
  outQueue := ioQueueNew (Fin cfg.jobs) cfg.jobs
  batches := []
  parsed := fun _ => []
  dropped := []
  freed := fun _ => false

/-- Every interleaving of the threads of one execution. -/
def pipelineLts (cfg : Config) : Lts (PipelineState cfg) (Tid cfg.jobs) where
  Init s := s = pipelineInit cfg
  Step := PipelineStep

/-- One more thread joins those that are past a point. -/
theorem update_ite_lt {N n : ℕ} (hn : n < N) (x y : WorkerPc) :
    Function.update (fun i : Fin N => if (i : ℕ) < n then x else y) ⟨n, hn⟩ x
      = fun i : Fin N => if (i : ℕ) < n + 1 then x else y := by
  funext i
  by_cases hi : i = ⟨n, hn⟩
  · subst hi
    simp
  · have hne : (i : ℕ) ≠ n := fun he => hi (Fin.ext he)
    rw [Function.update_of_ne hi]
    congr 1
    exact propext (by omega)

/-- The state in which `main` has created `k` workers and none of them has stepped. -/
def createdState (cfg : Config) (k : ℕ) : PipelineState cfg :=
  { pipelineInit cfg with
    main := .create k
    worker := fun i => if (i : ℕ) < k then .start else .notStarted }

/-- The first `k` turns of `main`'s loop lead there. -/
theorem reachable_createdState {k : ℕ} (hk : k ≤ cfg.jobs)
    (hok : ∀ i : Fin cfg.jobs, (i : ℕ) < k → cfg.createFails i = false) :
    (pipelineLts cfg).Reachable (createdState cfg k) := by
  induction k with
  | zero =>
    apply Lts.Reachable.init
    simp [pipelineLts, createdState, pipelineInit]
  | succ k ih =>
    have hprev := ih (Nat.le_of_succ_le hk) fun i hi => hok i (Nat.lt_succ_of_lt hi)
    have hworker : (createdState cfg (k + 1)).worker
        = Function.update (createdState cfg k).worker ⟨k, hk⟩ .start :=
      (update_ite_lt hk _ _).symm
    have hstate : createdState cfg (k + 1) = { createdState cfg k with
        main := .create (k + 1)
        worker := Function.update (createdState cfg k).worker ⟨k, hk⟩ .start } := by
      rw [← hworker]
      rfl
    rw [hstate]
    exact hprev.step (.main (MainStep.create (i := ⟨k, hk⟩) rfl (hok _ (Nat.lt_succ_self k))))

/-- `merge`'s `a->n`, the length of its arrays. -/
def Config.mergeN (cfg : Config) : ℤ := intOfLong cfg.jobs

/-- The shared object the next step of a worker or of the merge thread operates on. -/
def uses (s : PipelineState cfg) : Tid cfg.jobs → Option SharedObj
  | .main => none
  | .worker i =>
      match s.worker i with
      | .get | .drain => some .queue
      | .parse k => if ((cfg.paths[k]?).bind findExtension).isSome then some .langCache else none
      | .put => some .outQueue
      | .notStarted | .start | .scan _ | .done => none
  | .merge =>
      match s.merge with
      | .collect => some .outQueue
      | .notStarted | .write | .done => none

/-! ### Executions without failing `pthread_create` -/

/-- Every thread is created; the start-ups end as given. -/
def Config.ofStartUp {jobs : ℕ} (paths : List CStr) (startUp : Fin jobs → StartUp) : Config where
  jobs := jobs
  paths := paths
  startUp := startUp
  createFails := fun _ => false
  mergeCreateFails := false

/-- Every thread is created and every worker starts up. -/
def Config.healthy (jobs : ℕ) (paths : List CStr) : Config :=
  Config.ofStartUp paths fun _ : Fin jobs => .ok

/-- Nothing fails. -/
structure Config.IsHealthy (cfg : Config) : Prop where
  createFails : ∀ i, cfg.createFails i = false
  mergeCreateFails : cfg.mergeCreateFails = false
  startUp : ∀ i, cfg.startUp i = .ok

theorem Config.isHealthy_healthy (jobs : ℕ) (paths : List CStr) :
    (Config.healthy jobs paths).IsHealthy := ⟨fun _ => rfl, rfl, fun _ => rfl⟩

end Tsag
