import Tsag.PipelineProgress
import Tsag.WalkOwnership

/-!
# The process

The threads of the pipeline once more, each with the blocks it owns: `main` walks and
hands its paths to the workers, the workers hand their vectors to the merge thread, and
between two steps of the pipeline the operations of all threads on their blocks
interleave.  Allocations fail where they may, and each call of `parse_file_lines` finds what
it may: a file may change between two reads.  What the threads touch are the blocks of the
heap and the handles; the queues themselves, the stream of the tags file and the entries of
the language cache are not among them.

## Main definitions

* `MainMove`, `WorkerMove`, `MergeMove` — the steps of the pipeline, by what they pass on.
* `Turn`, `ProcessEnv` — what the calls of a process come to.
* `Batch` — a vector on its way to the merge thread.
* `Msg`, `Rest` — what goes through the queues, and what a thread rests with.
* `ProcessStep`, `processFrom`, `processLts` — the process.

## Main results

* `MainStep.move`, `WorkerStep.move`, `MergeStep.move` — what a step of a thread can do.
-/

namespace Tsag

variable {cfg : Config}

/-! ### Steps of the pipeline -/

/-- What goes through the queues in a step of the pipeline. -/
inductive Passed (cfg : Config)
  | nothing
  | putPath (k : ℕ)
  | gotPath (k : ℕ)
  | putVec (i : Fin cfg.jobs)
  | gotVec (i : Fin cfg.jobs)

/-- What the queues hold before and after; if nothing is passed on, no path is parsed and no
batch collected. -/
def Passed.Of (s s' : PipelineState cfg) : Passed cfg → Prop
  | nothing => s'.queue.items = s.queue.items ∧ s'.outQueue.items = s.outQueue.items ∧
      s'.parsed = s.parsed ∧ s'.batches = s.batches
  | putPath k => s'.queue.items = s.queue.items ++ [k] ∧ s'.outQueue.items = s.outQueue.items
  | gotPath k => s.queue.items = k :: s'.queue.items ∧ s'.outQueue.items = s.outQueue.items
  | putVec i => s'.queue.items = s.queue.items ∧ s'.outQueue.items = s.outQueue.items ++ [i]
  | gotVec i => s'.queue.items = s.queue.items ∧ s.outQueue.items = i :: s'.outQueue.items

/-- A step of `main`: where it leads, and what it passes on. -/
inductive MainMove (s s' : PipelineState cfg) : Prop
  | enter (hpc : s.main = .createMerge) (hpc' : s'.main = .enqueue 0)
      (hpass : Passed.nothing.Of s s')
  | put (k : ℕ) (hpc : s.main = .enqueue k) (hpc' : s'.main = .enqueue (k + 1))
      (hk : k < cfg.paths.length) (hpass : (Passed.putPath k).Of s s')
  | enqueued (hpc : s.main = .enqueue cfg.paths.length) (hpc' : s'.main = .closeQueue true)
      (hpass : Passed.nothing.Of s s')
  | other (hpc : ∀ k, s.main ≠ .enqueue k) (hpc' : ∀ k, s'.main ≠ .enqueue k)
      (hpass : Passed.nothing.Of s s')

/-- A step of a worker. -/
inductive WorkerMove (i : Fin cfg.jobs) (s s' : PipelineState cfg) : Prop
  | start (hpc : s.worker i = .start) (hpc' : s'.worker i = (cfg.startUp i).next)
      (hpass : Passed.nothing.Of s s')
  | get (k : ℕ) (hpc : s.worker i = .get) (hpc' : s'.worker i = .parse k)
      (hparsed : s'.parsed i = s.parsed i ++ [k]) (hpass : (Passed.gotPath k).Of s s')
  | getNull (hpc : s.worker i = .get) (hpc' : s'.worker i = .put) (hpass : Passed.nothing.Of s s')
  | parse (k : ℕ) (hpc : s.worker i = .parse k)
      (hpc' : s'.worker i = .get ∨ s'.worker i = .scan k) (hpass : Passed.nothing.Of s s')
  | scanned (k : ℕ) (hpc : s.worker i = .scan k) (hpc' : s'.worker i = .get)
      (hpass : Passed.nothing.Of s s')
  | put (hpc : s.worker i = .put) (hpc' : s'.worker i = .done) (hpass : (Passed.putVec i).Of s s')
  | drain (k : ℕ) (hpc : s.worker i = .drain) (hpc' : s'.worker i = .drain)
      (hpass : (Passed.gotPath k).Of s s')
  | drainNull (hpc : s.worker i = .drain) (hpc' : s'.worker i = .done)
      (hpass : Passed.nothing.Of s s')

/-- A step of the merge thread. -/
inductive MergeMove (s s' : PipelineState cfg) : Prop
  | collect (i : Fin cfg.jobs) (hpc : s.merge = .collect) (hpc' : s'.merge = .collect)
      (hbatches : s'.batches = s.batches ++ [i]) (hpass : (Passed.gotVec i).Of s s')
  | collectNull (hpc : s.merge = .collect) (hpc' : s'.merge = .write)
      (hpass : Passed.nothing.Of s s')
  | write (hpc : s.merge = .write) (hpc' : s'.merge = .done) (hpass : Passed.nothing.Of s s')

/-- **Everything a step of `main` does** to where it is and to the queues. -/
theorem MainStep.move {s s' : PipelineState cfg} (hr : Rings s) (hs : MainStep s s') :
    MainMove s s' := by
  cases hs with
  | createMerge hpc _ => exact .enter hpc rfl ⟨rfl, rfl, rfl, rfl⟩
  | put hpc hk hq => exact .put _ hpc rfl hk ⟨(hr.queue_wf.put hq).2, rfl⟩
  | enqueued hpc => exact .enqueued hpc rfl ⟨rfl, rfl, rfl, rfl⟩
  | create hpc _ | createFail hpc _ | created hpc | createMergeFail hpc _ | closeQueue hpc
  | join hpc _ | joined hpc | closeOut hpc | closeOutFail hpc | joinMerge hpc _
  | abortCloseQueue hpc | abortCloseOut hpc | freeOut hpc | freeQueue hpc | freeCache hpc =>
    exact .other (by simp [hpc]) (by simp) (by simp [Passed.Of])

/-- **Everything a step of a worker does** to where it is and to the queues. -/
theorem WorkerStep.move {s s' : PipelineState cfg} {i : Fin cfg.jobs} (hr : Rings s)
    (hs : WorkerStep i s s') : WorkerMove i s s' := by
  cases hs with
  | start hpc => exact .start hpc (Function.update_self ..) ⟨rfl, rfl, rfl, rfl⟩
  | get hpc hq =>
    exact .get _ hpc (Function.update_self ..) (Function.update_self ..)
      ⟨(hr.queue_wf.get_some hq).2, rfl⟩
  | getNull hpc hq =>
    obtain ⟨-, -, rfl⟩ := hr.queue_wf.get_null hq
    exact .getNull hpc (Function.update_self ..) ⟨rfl, rfl, rfl, rfl⟩
  | noExtension hpc _ => exact .parse _ hpc (Or.inl (Function.update_self ..)) ⟨rfl, rfl, rfl, rfl⟩
  | langCacheGet hpc _ => exact .parse _ hpc (Or.inr (Function.update_self ..)) ⟨rfl, rfl, rfl, rfl⟩
  | scanned hpc => exact .scanned _ hpc (Function.update_self ..) ⟨rfl, rfl, rfl, rfl⟩
  | put hpc hq => exact .put hpc (Function.update_self ..) ⟨rfl, (hr.out_wf.put hq).2⟩
  | drain hpc hq => exact .drain _ hpc hpc ⟨(hr.queue_wf.get_some hq).2, rfl⟩
  | drainNull hpc hq =>
    obtain ⟨-, -, rfl⟩ := hr.queue_wf.get_null hq
    exact .drainNull hpc (Function.update_self ..) ⟨rfl, rfl, rfl, rfl⟩

/-- **Everything a step of the merge thread does** to where it is and to the queues. -/
theorem MergeStep.move {s s' : PipelineState cfg} (hr : Rings s) (hs : MergeStep s s') :
    MergeMove s s' := by
  cases hs with
  | collect hpc hq => exact .collect _ hpc hpc rfl ⟨rfl, (hr.out_wf.get_some hq).2⟩
  | collectNull hpc hq =>
    obtain ⟨-, -, rfl⟩ := hr.out_wf.get_null hq
    exact .collectNull hpc rfl ⟨rfl, rfl, rfl, rfl⟩
  | write hpc => exact .write hpc rfl ⟨rfl, rfl, rfl, rfl⟩

/-! ### The process -/

instance (jobs : ℕ) : Fintype (Tid jobs) :=
  Fintype.ofEquiv (Option (Option (Fin jobs)))
    { toFun := fun o => o.elim .main fun o => o.elim .merge .worker
      invFun := fun t => match t with
        | .main => none
        | .merge => some none
        | .worker i => some (some i)
      left_inv := by rintro (_ | _ | i) <;> rfl
      right_inv := by rintro (_ | i | _) <;> rfl }

/-- What one call of `parse_file_lines` finds. -/
structure Turn where
  /-- The languages it looks up and the files it reads. -/
  corpus : Corpus
  /-- What its allocations come to, match by match. -/
  mem : ℕ → Memory

/-- The loop of `worker` over some paths, each with what its turn finds. -/
def turnsLoop (turns : List (CStr × Turn)) (vec : LineVec BuiltLine) :
    Option (LineVec BuiltLine) :=
  turns.foldlM (fun vec x => (parseFileLines x.2.corpus x.2.mem x.1 vec).map Prod.snd) vec

/-- What the calls of a process come to. -/
structure ProcessEnv (cfg : Config) where
  fs : FileSystem
  /-- The paths given on the command line, or the working directory. -/
  roots : List CStr
  /-- Enough turns for the walks. -/
  fuel : ℕ
  walkMem : ℕ → PathMemory
  /-- What a call of `parse_file_lines` with the path may find. -/
  may : CStr → Turn → Prop
  exists_may : ∀ path, ∃ turn, may path turn
  /-- The first allocation of `line_vec_new` succeeds; if the vector fails, it is then the
  second that does. -/
  structOk : Fin cfg.jobs → Bool
  qsort : Qsort LinePtr (compareLines LinePtr.str)
  /-- The number of workers fits the `int` that `merge` is given. -/
  jobs_le : cfg.jobs ≤ intMax
  /-- The array of `merge`'s heap, as it is found. -/
  heap : List HeapEntry
  length_heap : (heap.length : ℤ) = cfg.mergeN
  /-- The paths of the pipeline are those the walks put on the queue. -/
  puts : ∃ lost, walkPuts fs walkMem fuel (WalkState.init roots) = some (cfg.paths, lost)

/-- The heap has room for an entry of each worker. -/
theorem ProcessEnv.heap_length (env : ProcessEnv cfg) : env.heap.length = cfg.jobs := by
  have h := env.length_heap
  rw [Config.mergeN, intOfLong_eq env.jobs_le] at h
  exact Int.ofNat_inj.mp h

/-- What a worker may have in its vector when it has parsed these paths. -/
def ProcessEnv.Holds (env : ProcessEnv cfg) (taken : List CStr) (vec : LineVec BuiltLine) : Prop :=
  ∃ turns : List (CStr × Turn), turns.map Prod.fst = taken ∧ (∀ x ∈ turns, env.may x.1 x.2) ∧
    turnsLoop turns (lineVecNew BuiltLine 128) = some vec

/-- A vector on its way to the merge thread: it holds the lines of the paths its worker has
taken, in order and each once. -/
structure Batch (env : ProcessEnv cfg) where
  worker : Fin cfg.jobs
  taken : List CStr
  ptr : VecPtr
  strict : ptr.vec.items.Pairwise fun a b => a.str < b.str
  lines : ∃ vec, env.Holds taken vec ∧ (∀ p ∈ ptr.vec.items, p.line ∈ vec.items) ∧
    ∀ line ∈ vec.items, ∃ p ∈ ptr.vec.items, p.str = line.str

/-- What goes through the two queues. -/
inductive Msg (env : ProcessEnv cfg)
  | path (k : ℕ) (p : PathPtr) (hpath : cfg.paths[k]? = some p.path)
  | vec (b : Batch env)

/-- What a thread rests with between two steps of the pipeline. -/
inductive Rest (env : ProcessEnv cfg)
  | idle
  /-- `main`, about to put a path or past its walks. -/
  | walking (next : Option (PathPtr × ℕ × WalkPtr))
  /-- A worker between two paths, or past them. -/
  | ready (t : Tools) (v : VecPtr)
  /-- A worker that has taken a path. -/
  | parsing (t : Tools) (v : VecPtr) (p : PathPtr)
  /-- A worker without a vector. -/
  | draining (t : Tools)
  /-- The merge thread in its first loop. -/
  | collecting (batches : List (Batch env))
  /-- The merge thread when it is done. -/
  | written (out : List BuiltLine)

section Process

variable (env : ProcessEnv cfg)

open Owned

/-- `main`, from a point of its walks on to the next path to put. -/
def walkCode (fuel : ℕ) (w : WalkPtr) : Code (Rest env) := do
  let next ← walk env.fs env.walkMem fuel w
  return .walking next

/-- `worker` up to its first `io_queue_get`. -/
def startCode (i : Fin cfg.jobs) : Code (Rest env) := do
  match ← workerStart (cfg.startUp i) (env.structOk i) with
  | none => return .idle
  | some (t, none) => return .draining t
  | some (t, some v) => return .ready t v

/-- A turn of `worker`'s loop. -/
def parseCode (turn : Turn) (t : Tools) (v : VecPtr) (p : PathPtr) : Code (Rest env) := do
  let v ← workerTurn turn.corpus turn.mem p t v
  return .ready t v

/-- `worker` after its loop, up to the `io_queue_put`. -/
def finishCode (t : Tools) (v : VecPtr) : Code (Rest env) := do
  let v ← workerFinish env.qsort v
  return .ready t v

/-- The end of `worker`. -/
def endCode (t : Tools) : Code (Rest env) := do
  workerEnd t
  return .idle

/-- `worker` without a vector frees the path it has taken. -/
def drainCode (t : Tools) (p : PathPtr) : Code (Rest env) := do
  Own.release .mem p.addr
  return .draining t

/-- `merge` after its first loop. -/
def mergeCode (batches : List (Batch env)) : Code (Rest env) := do
  let out ← Owned.merge (batches.map Batch.ptr) env.heap
  return .written out

-- what `lang_cache_get` has answered the worker allows this of a turn
variable (answered : Fin cfg.jobs → CStr → Turn → Prop)

/-- A step of the pipeline, and what its thread does with its blocks afterwards. -/
inductive ProcessStep (s : PipelineState cfg) (prog : Tid cfg.jobs → Code (Rest env)) :
    Tid cfg.jobs → Act Res (Msg env) (Rest env) → PipelineState cfg → Prop
  | enter {s' : PipelineState cfg} (hs : PipelineStep s .main s') (hpc : s.main = .createMerge)
      (hpc' : s'.main = .enqueue 0) (hpass : Passed.nothing.Of s s') :
      ProcessStep s prog .main (.resume .idle (walkCode env env.fuel (WalkPtr.init env.roots))) s'
  | put {s' : PipelineState cfg} {k fuel : ℕ} {p : PathPtr} {w : WalkPtr}
      (hs : PipelineStep s .main s') (hpc : s.main = .enqueue k)
      (hpc' : s'.main = .enqueue (k + 1)) (hpass : (Passed.putPath k).Of s s')
      (hpath : cfg.paths[k]? = some p.path) :
      ProcessStep s prog .main
        (.send (.walking (some (p, fuel, w))) (.path k p hpath) (walkCode env fuel w)) s'
  | enqueued {s' : PipelineState cfg} (hs : PipelineStep s .main s')
      (hpc : s.main = .enqueue cfg.paths.length) (hpc' : s'.main = .closeQueue true)
      (hpass : Passed.nothing.Of s s') :
      ProcessStep s prog .main (.resume (.walking none) (return .idle)) s'
  -- `pthread_join` waits for the thread to return
  | main {s' : PipelineState cfg} (hs : PipelineStep s .main s') (hpc : ∀ k, s.main ≠ .enqueue k)
      (hpc' : ∀ k, s'.main ≠ .enqueue k) (hpass : Passed.nothing.Of s s')
      (hjoin : ∀ merged (i : Fin cfg.jobs), s.main = .join merged i → (prog (.worker i)).AtRest)
      (hjoinMerge : s.main = .joinMerge → (prog .merge).AtRest) :
      ProcessStep s prog .main (.resume .idle (return .idle)) s'
  | start {s' : PipelineState cfg} {i : Fin cfg.jobs} (hs : PipelineStep s (.worker i) s')
      (hpc : s.worker i = .start) (hpc' : s'.worker i = (cfg.startUp i).next)
      (hpass : Passed.nothing.Of s s') :
      ProcessStep s prog (.worker i) (.resume .idle (startCode env i)) s'
  | get {s' : PipelineState cfg} {i : Fin cfg.jobs} {k : ℕ} {p : PathPtr} {t : Tools} {v : VecPtr}
      (hs : PipelineStep s (.worker i) s') (hpc : s.worker i = .get)
      (hpc' : s'.worker i = .parse k) (hparsed : s'.parsed i = s.parsed i ++ [k])
      (hpass : (Passed.gotPath k).Of s s') (hpath : cfg.paths[k]? = some p.path) :
      ProcessStep s prog (.worker i)
        (.receive (.ready t v) (.path k p hpath) (return .parsing t v p)) s'
  | getNull {s' : PipelineState cfg} {i : Fin cfg.jobs} {t : Tools} {v : VecPtr}
      (hs : PipelineStep s (.worker i) s') (hpc : s.worker i = .get) (hpc' : s'.worker i = .put)
      (hpass : Passed.nothing.Of s s') :
      ProcessStep s prog (.worker i) (.resume (.ready t v) (finishCode env t v)) s'
  | parse {s' : PipelineState cfg} {i : Fin cfg.jobs} {k : ℕ} {turn : Turn} {p : PathPtr}
      {t : Tools} {v : VecPtr} (hs : PipelineStep s (.worker i) s')
      (hpc : s.worker i = .parse k) (hpc' : s'.worker i = .get ∨ s'.worker i = .scan k)
      (hpass : Passed.nothing.Of s s') (hpath : cfg.paths[k]? = some p.path)
      (hmay : env.may p.path turn) (hanswer : answered i p.path turn) :
      ProcessStep s prog (.worker i) (.resume (.parsing t v p) (parseCode env turn t v p)) s'
  | scanned {s' : PipelineState cfg} {i : Fin cfg.jobs} {k : ℕ} {t : Tools} {v : VecPtr}
      (hs : PipelineStep s (.worker i) s') (hpc : s.worker i = .scan k)
      (hpc' : s'.worker i = .get) (hpass : Passed.nothing.Of s s') :
      ProcessStep s prog (.worker i) (.resume (.ready t v) (return .ready t v)) s'
  | putVec {s' : PipelineState cfg} {t : Tools} {b : Batch env}
      (hs : PipelineStep s (.worker b.worker) s') (hpc : s.worker b.worker = .put)
      (hpc' : s'.worker b.worker = .done) (hpass : (Passed.putVec b.worker).Of s s')
      (htaken : b.taken = s.taken b.worker) :
      ProcessStep s prog (.worker b.worker) (.send (.ready t b.ptr) (.vec b) (endCode env t)) s'
  | drain {s' : PipelineState cfg} {i : Fin cfg.jobs} {k : ℕ} {p : PathPtr} {t : Tools}
      (hs : PipelineStep s (.worker i) s') (hpc : s.worker i = .drain)
      (hpc' : s'.worker i = .drain) (hpass : (Passed.gotPath k).Of s s')
      (hpath : cfg.paths[k]? = some p.path) :
      ProcessStep s prog (.worker i)
        (.receive (.draining t) (.path k p hpath) (drainCode env t p)) s'
  | drainNull {s' : PipelineState cfg} {i : Fin cfg.jobs} {t : Tools}
      (hs : PipelineStep s (.worker i) s') (hpc : s.worker i = .drain)
      (hpc' : s'.worker i = .done) (hpass : Passed.nothing.Of s s') :
      ProcessStep s prog (.worker i) (.resume (.draining t) (endCode env t)) s'
  | collect {s' : PipelineState cfg} {batches : List (Batch env)} {b : Batch env}
      (hs : PipelineStep s .merge s') (hpc : s.merge = .collect) (hpc' : s'.merge = .collect)
      (hbatches : s'.batches = s.batches ++ [b.worker])
      (hpass : (Passed.gotVec b.worker).Of s s') :
      ProcessStep s prog .merge
        (.receive (.collecting batches) (.vec b) (return .collecting (batches ++ [b]))) s'
  | collectNull {s' : PipelineState cfg} {batches : List (Batch env)}
      (hs : PipelineStep s .merge s') (hpc : s.merge = .collect) (hpc' : s'.merge = .write)
      (hpass : Passed.nothing.Of s s') :
      ProcessStep s prog .merge (.resume (.collecting batches) (mergeCode env batches)) s'
  | write {s' : PipelineState cfg} {out : List BuiltLine} (hs : PipelineStep s .merge s')
      (hpc : s.merge = .write) (hpc' : s'.merge = .done) (hpass : Passed.nothing.Of s s') :
      ProcessStep s prog .merge (.resume (.written out) (return .written out)) s'

/-- The threads of the process follow the pipeline. -/
def process : Protocol (PipelineState cfg) (Tid cfg.jobs) Res (Msg env) (Rest env) where
  Init s := s = pipelineInit cfg
  Step := ProcessStep env fun _ _ _ => True

/-- What the threads start with. -/
def restInit : Tid cfg.jobs → Rest env
  | .main | .worker _ => .idle
  | .merge => .collecting []

/-- The state of the process. -/
abbrev ProcessState := OwnState (PipelineState cfg) (Tid cfg.jobs) Res (Msg env) (Rest env)

/-- Every interleaving of the operations of the threads, from the point where `main` is
about to create its first worker.  The blocks that are live by then belong to no thread. -/
def processFrom (blocks : Blocks Res) : Lts (ProcessState env) (Tid cfg.jobs) :=
  ownLts (process env) (fun t => .ret (restInit env t)) blocks

/-- With those of the threads only. -/
def processLts : Lts (ProcessState env) (Tid cfg.jobs) := processFrom env .empty

variable {env} {answered : Fin cfg.jobs → CStr → Turn → Prop} {s s' : PipelineState cfg}
  {prog : Tid cfg.jobs → Code (Rest env)} {t : Tid cfg.jobs} {act : Act Res (Msg env) (Rest env)}

/-- A step of the process is one of the pipeline. -/
theorem ProcessStep.pipelineStep (hs : ProcessStep env answered s prog t act s') :
    PipelineStep s t s' := by
  cases hs <;> assumption

/-- Whatever the workers have been answered. -/
theorem ProcessStep.process_step (hs : ProcessStep env answered s prog t act s') :
    (process env).Step s prog t act s' := by
  cases hs with
  | enter hs hpc hpc' hpass => exact .enter hs hpc hpc' hpass
  | put hs hpc hpc' hpass hpath => exact .put hs hpc hpc' hpass hpath
  | enqueued hs hpc hpc' hpass => exact .enqueued hs hpc hpc' hpass
  | main hs hpc hpc' hpass hjoin hjoinMerge => exact .main hs hpc hpc' hpass hjoin hjoinMerge
  | start hs hpc hpc' hpass => exact .start hs hpc hpc' hpass
  | get hs hpc hpc' hparsed hpass hpath => exact .get hs hpc hpc' hparsed hpass hpath
  | getNull hs hpc hpc' hpass => exact .getNull hs hpc hpc' hpass
  | parse hs hpc hpc' hpass hpath hmay _ => exact .parse hs hpc hpc' hpass hpath hmay trivial
  | scanned hs hpc hpc' hpass => exact .scanned hs hpc hpc' hpass
  | putVec hs hpc hpc' hpass htaken => exact .putVec hs hpc hpc' hpass htaken
  | drain hs hpc hpc' hpass hpath => exact .drain hs hpc hpc' hpass hpath
  | drainNull hs hpc hpc' hpass => exact .drainNull hs hpc hpc' hpass
  | collect hs hpc hpc' hbatches hpass => exact .collect hs hpc hpc' hbatches hpass
  | collectNull hs hpc hpc' hpass => exact .collectNull hs hpc hpc' hpass
  | write hs hpc hpc' hpass => exact .write hs hpc hpc' hpass

end Process

end Tsag
