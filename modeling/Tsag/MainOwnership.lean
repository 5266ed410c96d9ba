import Tsag.IoQueue
import Tsag.LangOwnership
import Tsag.Options
import Tsag.ReadFile

/-!
# The blocks of `main`

What `main` acquires before it creates the threads and releases when they are done, with
every way out in between.

## Main definitions

* `QueuePtr`, `Owned.ioQueueNew`, `Owned.ioQueueFree` — a queue, its items apart.
* `MainCalls`, `MainPtr` — what the calls of `main` come to, and what it has then.
* `Owned.mainStart`, `Owned.mainEnd` — `main` before and after the threads.

## Main results

* `Owned.wp_mainStart`, `main_starts` — a start that fails leaves nothing; one that succeeds
  leaves an array with an entry for each worker.
* `Owned.wp_mainEnd` — nothing is left at the end.
-/

namespace Tsag

/-! ### The queues -/

/-- An `IoQueue*`, what it holds apart. -/
structure QueuePtr where
  self : ℕ
  buf : ℕ
  lock : ℕ
  notFull : ℕ
  notEmpty : ℕ

/-- The blocks of a queue. -/
def QueuePtr.owned (q : QueuePtr) : Owns :=
  {(.mem, q.buf)} + ({(.mutex, q.lock)} + ({(.cond, q.notFull)} + ({(.cond, q.notEmpty)}
    + {(.mem, q.self)})))

/-- Which allocations of `io_queue_new` succeed. -/
structure QueueCalls where
  self : Bool
  buf : Bool

namespace Owned

open Own

/-- `io_queue_new`. -/
def ioQueueNew (cap : ℕ) (calls : QueueCalls) : Code (Option QueuePtr) :=
  if ¬ calls.self then return none
  else do
    let self ← acquire .mem
    -- `calloc` refuses an array of more than `SIZE_MAX` bytes
    if ¬ calls.buf ∨ sizeMax < cap * 8 then
      release .mem self
      return none
    else
      let buf ← acquire .mem
      touch .mem self
      let lock ← acquire .mutex
      let notFull ← acquire .cond
      let notEmpty ← acquire .cond
      return some ⟨self, buf, lock, notFull, notEmpty⟩

/-- `io_queue_free`. -/
def ioQueueFree (q : QueuePtr) : Code Unit := do
  touch .mem q.self
  release .mem q.buf
  release .mutex q.lock
  release .cond q.notFull
  release .cond q.notEmpty
  release .mem q.self

/-- A queue that could not be made leaves nothing; one that could has slots that fit the
memory. -/
theorem wp_ioQueueNew (cap : ℕ) (calls : QueueCalls) :
    (ioQueueNew cap calls).wp (fun q left => left = q.elim 0 QueuePtr.owned ∧
      (q ≠ none → cap * 8 ≤ sizeMax)) 0 := by
  unfold ioQueueNew
  by_cases hself : calls.self
  swap
  · rw [if_pos hself]
    exact ⟨rfl, fun h => absurd rfl h⟩
  rw [if_neg (not_not.mpr hself), wp_bind, wp_acquire]
  intro self
  by_cases hbuf : ¬ calls.buf ∨ sizeMax < cap * 8
  · rw [if_pos hbuf, wp_bind, wp_release]
    exact ⟨rfl, fun h => absurd rfl h⟩
  rw [if_neg hbuf]
  simp only [wp_bind, wp_acquire, wp_touch]
  intro buf
  refine ⟨by simp, fun lock notFull notEmpty => ⟨?_, ?_⟩⟩
  · show _ = QueuePtr.owned ⟨self, buf, lock, notFull, notEmpty⟩
    rw [QueuePtr.owned]
    abel
  · intro _
    rw [not_or, not_lt] at hbuf
    exact hbuf.2

theorem wp_ioQueueFree (q : QueuePtr) :
    (ioQueueFree q).wp (fun _ left => left = 0) q.owned := by
  rw [QueuePtr.owned, ← add_zero {(Res.mem, q.self)}]
  simp only [ioQueueFree, wp_bind, wp_touch, wp_release]
  exact ⟨by simp, trivial⟩

end Owned

/-! ### Before the threads -/

/-- What the calls of `main` come to, those of its threads and its walks apart. -/
structure MainCalls where
  getenv : CStr → Option CStr
  cache : CacheCalls
  /-- `sysconf(_SC_NPROCESSORS_ONLN)`. -/
  online : ℤ
  fopen : Bool
  queue : QueueCalls
  outQueue : QueueCalls
  threads : Bool
  /-- `fclose` returns 0. -/
  fclose : Bool

/-- What `main` has when it creates the threads. -/
structure MainPtr where
  opts : Options
  /-- `jobs`. -/
  jobs : ℕ
  cache : CachePtr
  /-- `out`, if it is not `stdout`. -/
  out : Option ℕ
  queue : QueuePtr
  outQueue : QueuePtr
  threads : ℕ
  /-- The entries that `threads` has room for. -/
  room : ℕ

/-- The blocks of `main`. -/
def MainPtr.owned (p : MainPtr) : Owns :=
  {(.mem, p.threads)} + (p.outQueue.owned + (p.queue.owned + (Own.blockOf .file p.out
    + p.cache.owned)))

/-- `parsers_dir`. -/
def parsersDir (getenv : CStr → Option CStr) : Option CStr :=
  match getenv (CStr.lit "TSAG_PARSERS") with
  | some dir => some dir
  | none => (getenv (CStr.lit "XDG_DATA_HOME")).map fun base =>
      snprintf (List.replicate pathMax 0) (base.bytes ++ ascii "/tsag")

namespace Owned

open Own

/-- `out`, `some none` being `stdout`. -/
def openOut (output : Option CStr) (fopen : Bool) : Code (Option (Option ℕ)) :=
  if output = some (CStr.lit "-") then return some none
  else if ¬ fopen then return none
  else do
    let out ← acquire .file
    return some (some out)

/-- `lang_cache_free` of a cache in which nothing has been loaded. -/
def langCacheFreeEmpty (cache : CachePtr) : Code Unit := langCacheFree (E := Empty) cache []

/-- `main` up to the loop that creates the workers: what it returns, or what it goes on
with. -/
def mainStart (permute : Bool) (args : List CStr) (calls : MainCalls) : Code (ℕ ⊕ MainPtr) :=
  match parseOptions permute args with
  | .help => return .inl 0
  | .invalid => return .inl 2
  | .ok opts =>
      match parsersDir calls.getenv with
      | none => fail -- `assert(base_dir)`
      | some _ => do
          match ← langCacheNew calls.cache with
          | none => return .inl 1
          | some cache =>
              let jobs := (mainJobs opts.jobs calls.online).toNat
              match ← openOut opts.output calls.fopen with
              | none =>
                  langCacheFreeEmpty cache
                  return .inl 1
              | some out =>
                  match ← ioQueueNew queueCapacity calls.queue with
                  | none =>
                      free .file out
                      langCacheFreeEmpty cache
                      return .inl 1
                  | some queue =>
                      match ← ioQueueNew jobs calls.outQueue with
                      | none =>
                          ioQueueFree queue
                          free .file out
                          langCacheFreeEmpty cache
                          return .inl 1
                      | some outQueue =>
                          if ¬ calls.threads then
                            ioQueueFree outQueue
                            ioQueueFree queue
                            free .file out
                            langCacheFreeEmpty cache
                            return .inl 1
                          else
                            let threads ← acquire .mem
                            -- the size of the array is a `size_t`
                            return .inr ⟨opts, jobs, cache, out, queue, outQueue, threads,
                              jobs * 8 % 2 ^ 64 / 8⟩

/-- What a start leaves. -/
def Started (permute : Bool) (args : List CStr) (calls : MainCalls) :
    ℕ ⊕ MainPtr → Owns → Prop
  | .inl rc, left => left = 0 ∧ rc = match parseOptions permute args with
      | .help => 0
      | .invalid => 2
      | .ok _ => 1
  | .inr p, left => left = p.owned ∧ parseOptions permute args = .ok p.opts ∧
      (p.jobs : ℤ) = mainJobs p.opts.jobs calls.online ∧ 1 ≤ p.jobs ∧ p.jobs * 8 ≤ sizeMax ∧
      p.room = p.jobs

theorem wp_openOut (output : Option CStr) (fopen : Bool) :
    (openOut output fopen).wp (fun out left => left = out.elim 0 (blockOf .file)) 0 := by
  unfold openOut
  by_cases hout : output = some (CStr.lit "-")
  · rw [if_pos hout]
    exact rfl
  rw [if_neg hout]
  by_cases hfopen : fopen
  · rw [if_neg (not_not.mpr hfopen), wp_bind, wp_acquire]
    intro out
    exact add_zero _
  · rw [if_pos hfopen]
    exact rfl

theorem wp_langCacheFreeEmpty (cache : CachePtr) :
    (langCacheFreeEmpty cache).wp (fun _ left => left = 0) cache.owned := by
  have h := wp_langCacheFree cache ([] : List (EntryPtr Empty))
  rwa [show entriesOwned ([] : List (EntryPtr Empty)) = 0 from rfl, zero_add] at h

theorem wp_freeOut (out : Option ℕ) :
    (free .file out : Code Unit).wp (fun _ left => left = 0) (blockOf .file out) := by
  rw [← add_zero (blockOf Res.file out), wp_free]

variable {permute : Bool} {args : List CStr} {calls : MainCalls} {opts : Options}

/-- The number of workers, and the room in their array. -/
theorem room_eq {jobs : ℕ} (h : jobs * 8 ≤ sizeMax) : jobs * 8 % 2 ^ 64 / 8 = jobs := by
  unfold sizeMax at h
  omega

/-- **A start that fails leaves nothing**; one that succeeds leaves the blocks of `main`,
and an entry of `threads` for each worker. -/
theorem wp_mainStart (hdir : parsersDir calls.getenv ≠ none) (honline : calls.online ≤ longMax) :
    (mainStart permute args calls).wp (Started permute args calls) 0 := by
  unfold mainStart
  cases hparse : parseOptions permute args with
  | help => exact ⟨rfl, by rw [hparse]⟩
  | invalid => exact ⟨rfl, by rw [hparse]⟩
  | ok opts =>
    obtain ⟨hone, -⟩ := mainJobs_mem hparse honline
    have hfail : (pure (.inl 1) : Code (ℕ ⊕ MainPtr)).wp (Started permute args calls) 0 :=
      ⟨rfl, by rw [hparse]⟩
    obtain ⟨dir, hdir⟩ := Option.ne_none_iff_exists'.mp hdir
    simp only [hdir]
    rw [wp_bind]
    apply wp_mono (wp_langCacheNew calls.cache)
    rintro (_ | cache) _ rfl
    · exact hfail
    -- what is freed again at each point
    have hcache : (do langCacheFreeEmpty cache; return .inl 1 : Code (ℕ ⊕ MainPtr)).wp
        (Started permute args calls) cache.owned := by
      have h := wp_seq (wp_langCacheFreeEmpty cache) hfail
      rwa [add_zero] at h
    rw [wp_bind]
    apply wp_call (wp_openOut opts.output calls.fopen) cache.owned (zero_add _).symm
    rintro (_ | out) _ rfl
    · rw [show Option.elim none 0 (blockOf Res.file) = 0 from rfl, zero_add]
      exact hcache
    have hout := wp_seq (wp_freeOut out) hcache
    rw [wp_bind]
    refine wp_call (wp_ioQueueNew queueCapacity calls.queue) (blockOf .file out + cache.owned)
      (zero_add _).symm ?_
    rintro (_ | queue) _ ⟨rfl, -⟩
    · rw [show Option.elim none 0 QueuePtr.owned = 0 from rfl, zero_add]
      exact hout
    have hqueue := wp_seq (wp_ioQueueFree queue) hout
    rw [wp_bind]
    refine wp_call (wp_ioQueueNew (mainJobs opts.jobs calls.online).toNat calls.outQueue)
      (queue.owned + (blockOf .file out + cache.owned)) (zero_add _).symm ?_
    rintro (_ | outQueue) _ ⟨rfl, hsize⟩
    · rw [show Option.elim none 0 QueuePtr.owned = 0 from rfl, zero_add]
      exact hqueue
    dsimp only
    by_cases hthreads : calls.threads
    · rw [if_neg (not_not.mpr hthreads), wp_bind, wp_acquire]
      have hroom := hsize (Option.some_ne_none _)
      refine fun threads => ⟨rfl, hparse, Int.toNat_of_nonneg (by omega), ?_, hroom, room_eq hroom⟩
      show 1 ≤ (mainJobs opts.jobs calls.online).toNat
      omega
    · rw [if_pos hthreads]
      exact wp_seq (wp_ioQueueFree outQueue) hqueue

end Owned

/-- **How `main` starts**, whatever fails: it faults nowhere; if it returns at once it
returns 0 for help, 2 for a command line that is not accepted and 1 for a call that fails,
and has released what it had acquired; otherwise it owns what it needs, and each of its
workers has an entry in `threads`, however many have been asked for. -/
theorem main_starts (permute : Bool) (args : List CStr) {calls : MainCalls}
    (hdir : parsersDir calls.getenv ≠ none) (honline : calls.online ≤ longMax) :
    ∃ r blocks, (Owned.mainStart permute args calls).run Blocks.empty = some (r, blocks) ∧
      Owned.Started permute args calls r blocks.live := by
  obtain ⟨r, blocks, left, hrun, -, hlive, hstarted⟩ :=
    Own.run_of_wp (Owned.wp_mainStart hdir honline)
      Blocks.wf_empty (add_zero 0).symm
  rw [add_zero] at hlive
  exact ⟨r, blocks, hrun, hlive ▸ hstarted⟩

/-- More workers than the array of the merge queue can have. -/
def manyJobs : List CStr := [CStr.lit "-j", CStr.lit "2305843009213693952"]

/-- Nothing is left when there is no memory for them. -/
theorem main_starts_manyJobs : ∃ calls blocks, (Owned.mainStart true manyJobs calls).run
    Blocks.empty = some (.inl 1, blocks) ∧ blocks.live = 0 := by
  let calls : MainCalls := ⟨fun _ => some (CStr.lit "parsers"), ⟨true, true, true, true⟩, 3, true,
    ⟨true, true⟩, ⟨true, true⟩, true, true⟩
  have hparse : parseOptions true manyJobs = .ok ⟨none, 2305843009213693952, []⟩ := by
    decide +kernel
  obtain ⟨r, blocks, hrun, hstarted⟩ :=
    main_starts true manyJobs (show parsersDir calls.getenv ≠ none from Option.some_ne_none _)
      (show calls.online ≤ longMax by decide)
  cases r with
  | inl rc =>
    obtain ⟨hlive, hrc⟩ := hstarted
    rw [hparse] at hrc
    subst hrc
    exact ⟨calls, blocks, hrun, hlive⟩
  | inr p =>
    obtain ⟨-, hopts, hjobs, -, hsize, -⟩ := hstarted
    have hmany : (p.jobs : ℤ) = 2305843009213693952 := by
      rw [hjobs, ← ParseResult.ok.inj (hparse.symm.trans hopts)]
      decide
    unfold sizeMax at hsize
    omega

/-! ### After the threads -/

namespace Owned

open Own

/-- `main` from `free(threads)` on, when it has joined the merge thread. -/
def mainEnd {E : Type} (p : MainPtr) (entries : List (EntryPtr E)) (fclose : Bool) : Code ℕ := do
  release .mem p.threads
  ioQueueFree p.outQueue
  ioQueueFree p.queue
  langCacheFree p.cache entries
  match p.out with
  | none => return 0
  | some out =>
      release .file out
      return if fclose then 0 else 1

/-- `main` from `free(threads)` on, when a thread could not be created. -/
def mainAbort {E : Type} (p : MainPtr) (entries : List (EntryPtr E)) : Code ℕ := do
  release .mem p.threads
  ioQueueFree p.outQueue
  ioQueueFree p.queue
  free .file p.out
  langCacheFree p.cache entries
  return 1

variable {E : Type}

theorem wp_releaseThreads (threads : ℕ) :
    (release .mem threads : Code Unit).wp (fun _ left => left = 0) {(.mem, threads)} := by
  rw [← add_zero {(Res.mem, threads)}, wp_release]

/-- **Nothing is left at the end.** -/
theorem wp_mainEnd (p : MainPtr) (entries : List (EntryPtr E)) (fclose : Bool) :
    (mainEnd p entries fclose).wp
      (fun rc left => left = 0 ∧ rc = if p.out = none ∨ fclose then 0 else 1)
      (p.owned + entriesOwned entries) := by
  have hheld : p.owned + entriesOwned entries = {(.mem, p.threads)} + (p.outQueue.owned
      + (p.queue.owned + ((entriesOwned entries + p.cache.owned) + blockOf .file p.out))) := by
    rw [MainPtr.owned]
    abel
  rw [hheld]
  refine wp_seq (wp_releaseThreads _) (wp_seq (wp_ioQueueFree _) (wp_seq (wp_ioQueueFree _)
    (wp_seq (wp_langCacheFree _ _) ?_)))
  cases p.out with
  | none => exact ⟨rfl, rfl⟩
  | some out =>
    have hclose : (blockOf Res.file (some out)) = {(.file, out)} + 0 := (add_zero _).symm
    rw [hclose, wp_bind, wp_release]
    exact ⟨rfl, by simp⟩

/-- Nothing is left after an abort. -/
theorem wp_mainAbort (p : MainPtr) (entries : List (EntryPtr E)) :
    (mainAbort p entries).wp (fun rc left => left = 0 ∧ rc = 1)
      (p.owned + entriesOwned entries) := by
  have hheld : p.owned + entriesOwned entries = {(.mem, p.threads)} + (p.outQueue.owned
      + (p.queue.owned + (blockOf .file p.out + ((entriesOwned entries + p.cache.owned)
        + 0)))) := by
    rw [MainPtr.owned]
    abel
  rw [hheld]
  exact wp_seq (wp_releaseThreads _) (wp_seq (wp_ioQueueFree _) (wp_seq (wp_ioQueueFree _)
    (wp_seq (wp_freeOut _) (wp_seq (wp_langCacheFree _ _) ⟨rfl, rfl⟩))))

end Owned

end Tsag
