import Tsag.Process

/-!
# The memory of the process

At every point of the pipeline a thread rests with certain blocks, and what it holds is what
the functions of the program make of the paths it has taken.  The threads keep to these
contracts, so they own disjoint blocks in every state of every interleaving.

## Main definitions

* `Fits`, `contract` — what a thread rests with at a point.
* `MailFits` — the messages under way are those in the queues.

## Main results

* `wp_resume`, `wp_send`, `wp_receive` — a thread that goes on comes to rest by its contract.
* `process_keeps` — the threads keep to their contracts.
* `separated_of_reachable` — they own disjoint blocks in every reachable state.
-/

namespace Tsag

variable {cfg : Config} {env : ProcessEnv cfg}

/-! ### Contracts -/

/-- The blocks that go with a message. -/
def Msg.owned : Msg env → Owns
  | path _ p _ => {(.mem, p.addr)}
  | vec b => b.ptr.owned

/-- What the message is in its queue. -/
def Msg.key : Msg env → ℕ ⊕ Fin cfg.jobs
  | path k _ _ => .inl k
  | vec b => .inr b.worker

/-- The blocks a thread rests with. -/
def Rest.owned : Rest env → Owns
  | idle | walking none | written _ => 0
  | walking (some (p, _, w)) => {(.mem, p.addr)} + w.stack.owned
  | ready t v => v.owned + t.owned
  | parsing t v p => {(.mem, p.addr)} + (v.owned + t.owned)
  | draining t => t.owned
  | collecting batches => vecsOwned (batches.map Batch.ptr)

variable (env) in
/-- What the walks have still to put on the queue. -/
def PutsLeft (next : Option (PathPtr × ℕ × WalkPtr)) (puts : List CStr) : Prop :=
  match next with
  | none => puts = []
  | some (p, fuel, w) => ∃ rest lost, puts = p.path :: rest ∧
      walkPuts env.fs env.walkMem fuel w.value = some (rest, lost)

/-- What `main` rests with at a point. -/
def MainFits : MainPc → Rest env → Prop
  | .enqueue k, a => ∃ next, a = .walking next ∧ PutsLeft env next (cfg.paths.drop k)
  | _, a => a = .idle

/-- What a worker that has taken these paths rests with at a point. -/
def WorkerFits (i : Fin cfg.jobs) (taken : List CStr) : WorkerPc → Rest env → Prop
  | .notStarted, a | .start, a => a = .idle ∧ taken = []
  | .get, a | .scan _, a => ∃ t v, a = .ready t v ∧ env.Holds taken v.value
  | .parse k, a => ∃ t v p before, a = .parsing t v p ∧ cfg.paths[k]? = some p.path ∧
      taken = before ++ [p.path] ∧ env.Holds before v.value
  | .put, a => ∃ t, ∃ b : Batch env, a = .ready t b.ptr ∧ b.worker = i ∧ b.taken = taken
  | .drain, a => ∃ t, a = .draining t
  | .done, a => a = .idle

/-- These are the batches the merge thread has collected. -/
def Collected (s : PipelineState cfg) (batches : List (Batch env)) : Prop :=
  batches.map Batch.worker = s.batches ∧ ∀ b ∈ batches, b.taken = s.taken b.worker

variable (env) in
/-- The merge thread has written the lines of its batches, in order. -/
def Written (s : PipelineState cfg) (out : List BuiltLine) : Prop :=
  (out.Pairwise fun a b => a.str ≤ b.str) ∧ ∃ batches : List (Batch env), Collected s batches ∧
    out.Perm (batches.flatMap fun b => b.ptr.vec.items.map LinePtr.line)

/-- What the merge thread rests with at a point. -/
def MergeFits (s : PipelineState cfg) : MergePc → Rest env → Prop
  | .notStarted, a | .collect, a => ∃ batches, a = .collecting batches ∧ Collected s batches
  | .write, a | .done, a => ∃ out, a = .written out ∧ Written env s out

/-- What a thread rests with. -/
def Fits (s : PipelineState cfg) : Tid cfg.jobs → Rest env → Prop
  | .main, a => MainFits s.main a
  | .worker i, a => WorkerFits i (s.taken i) (s.worker i) a
  | .merge, a => MergeFits s s.merge a

variable (env) in
/-- The contract of a thread: it rests with what fits the point it has reached, and with
the blocks of that. -/
def contract (s : PipelineState cfg) (t : Tid cfg.jobs) (a : Rest env) (held : Owns) : Prop :=
  (pipelineLts cfg).Reachable s ∧ Fits s t a ∧ held = a.owned

/-- The messages under way are those in the queues, and the vectors are those of what their
workers have taken. -/
def MailFits (s : PipelineState cfg) (mail : Multiset (Msg env)) : Prop :=
  mail.map Msg.key
      = (s.queue.items : Multiset ℕ).map .inl + (s.outQueue.items : Multiset _).map .inr ∧
    ∀ b, Msg.vec b ∈ mail → b.taken = s.taken b.worker

theorem mainFits_iff {pc : MainPc} (hpc : ∀ k, pc ≠ .enqueue k) (a : Rest env) :
    MainFits pc a ↔ a = .idle := by
  cases pc with
  | enqueue k => exact absurd rfl (hpc k)
  | _ => exact Iff.rfl

/-! ### The other threads -/

/-- A worker takes nothing in a step of another thread, nor when it is not at
`io_queue_get`. -/
theorem PipelineStep.taken_eq {s s' : PipelineState cfg} {t : Tid cfg.jobs}
    (hs : PipelineStep s t s') {i : Fin cfg.jobs} (hi : t ≠ .worker i ∨ s.worker i ≠ .get) :
    s'.taken i = s.taken i := by
  have hparsed : s'.parsed i = s.parsed i := by
    cases hs with
    | main hs => cases hs <;> rfl
    | @worker _ j _ hs =>
      cases hs with
      | get hpc _ =>
        refine Function.update_of_ne ?_ _ _
        rintro rfl
        exact hi.elim (fun h => h rfl) fun h => h hpc
      | _ => rfl
    | merge _ hs => cases hs <;> rfl
  rw [PipelineState.taken, hparsed]
  rfl

/-- Nor a worker that is done. -/
theorem PipelineStep.taken_of_done {s s' : PipelineState cfg} {t : Tid cfg.jobs}
    (hs : PipelineStep s t s') {i : Fin cfg.jobs} (hi : s.worker i = .done) :
    s'.taken i = s.taken i := hs.taken_eq (Or.inr (by simp [hi]))

/-- What has been collected is not affected by a step of another thread. -/
theorem Collected.step {s s' : PipelineState cfg} {t : Tid cfg.jobs} (hinv : PipelineInv s)
    (hs : PipelineStep s t s') (hbatches : s'.batches = s.batches) {batches : List (Batch env)}
    (h : Collected s batches) : Collected s' batches := by
  refine ⟨h.1.trans hbatches.symm, fun b hb => (h.2 b hb).trans (hs.taken_of_done ?_).symm⟩
  have hmem : b.worker ∈ s.batches := h.1 ▸ List.mem_map_of_mem hb
  exact ((hinv.collection.mem_iff _).mp (List.mem_append_right _ hmem)).1

/-- A step of one thread leaves the points of the others alone, but that `main` creates
threads. -/
theorem PipelineStep.fits_of_ne {s s' : PipelineState cfg} {t u : Tid cfg.jobs}
    (hinv : PipelineInv s) (hs : PipelineStep s t s') (hu : u ≠ t) {a : Rest env}
    (h : Fits s u a) : Fits s' u a := by
  have htaken : ∀ i, u = .worker i → s'.taken i = s.taken i :=
    fun i hi => hs.taken_eq (Or.inl fun ht => hu (hi.trans ht.symm))
  cases hs with
  | main hs =>
    cases u with
    | main => exact absurd rfl hu
    | worker i =>
      cases hs with
      | @create j hpc _ =>
        -- A worker that is created starts at the beginning, with nothing taken.
        show WorkerFits i (s.taken i) (Function.update s.worker j .start i) a
        by_cases hij : i = j
        · subst hij
          have hnew : s.worker i = .notStarted := by
            rw [hinv.phases.started, hpc]
            exact le_rfl
          rw [Fits, hnew] at h
          rw [Function.update_self]
          exact h
        · rw [Function.update_of_ne hij]
          exact h
      | _ => exact h
    | merge =>
      cases hs with
      | createMerge hpc _ =>
        -- The merge thread starts with no batches.
        have hnew : s.merge = .notStarted := by
          rw [hinv.phases.merge_started, hpc]
          rfl
        rw [Fits, hnew] at h
        exact h
      | _ => exact h
  | @worker _ i hrun hs =>
    obtain ⟨hmain, hmerge, -, -, -, x, hworker, -⟩ := hs.moves
    cases u with
    | main =>
      rw [Fits, hmain]
      exact h
    | worker j =>
      have hji : j ≠ i := fun he => hu (by rw [he])
      rw [Fits, htaken j rfl, hworker, Function.update_of_ne hji]
      exact h
    | merge =>
      -- a worker adds nothing to the batches, and those of others stay
      have hbatches : s'.batches = s.batches := by cases hs <;> rfl
      have hcollected : ∀ batches : List (Batch env), Collected s batches → Collected s' batches :=
        fun batches hb => hb.step hinv (.worker hrun hs) hbatches
      rw [Fits] at h
      rw [Fits, hmerge]
      cases hpc : s.merge with
      | notStarted | collect =>
        rw [hpc] at h
        obtain ⟨batches, hrest, hb⟩ := h
        exact ⟨batches, hrest, hcollected _ hb⟩
      | write | done =>
        rw [hpc] at h
        obtain ⟨out, hrest, horder, batches, hb, hlines⟩ := h
        exact ⟨out, hrest, horder, batches, hcollected _ hb, hlines⟩
  | merge _ hs =>
    obtain ⟨hmain, hworker, -⟩ := hs.moves
    cases u with
    | main =>
      rw [Fits, hmain]
      exact h
    | worker j =>
      rw [Fits, htaken j rfl, hworker]
      exact h
    | merge => exact absurd rfl hu

/-! ### The parts of the threads -/

/-- One more path parsed. -/
theorem ProcessEnv.Holds.snoc {taken : List CStr} {vec vec' : LineVec BuiltLine}
    (h : env.Holds taken vec) {path : CStr} {turn : Turn} (hmay : env.may path turn) {rc : ℕ}
    (hparse : parseFileLines turn.corpus turn.mem path vec = some (rc, vec')) :
    env.Holds (taken ++ [path]) vec' := by
  obtain ⟨turns, rfl, hall, hloop⟩ := h
  refine ⟨turns ++ [(path, turn)], by rw [List.map_append, List.map_singleton], ?_, ?_⟩
  · intro x hx
    rcases List.mem_append.mp hx with hx | hx
    · exact hall x hx
    · rw [List.mem_singleton.mp hx]
      exact hmay
  · rw [turnsLoop] at hloop ⊢
    rw [List.foldlM_append, hloop]
    simp [hparse]

variable (env)

section Parts

open Owned

variable {s : PipelineState cfg}

/-- `main` has the walks go on. -/
theorem wp_walkCode {fuel k : ℕ} {w : WalkPtr} {lost : List CStr}
    (hs : (pipelineLts cfg).Reachable s) (hpc : s.main = .enqueue k)
    (h : walkPuts env.fs env.walkMem fuel w.value = some (cfg.paths.drop k, lost)) :
    (walkCode env fuel w).wp (contract env s .main) w.stack.owned := by
  rw [walkCode, Own.wp_bind]
  refine Own.wp_mono (wp_walk fuel h) fun next left hnext => ⟨hs, ?_, ?_⟩
  · rw [Fits, hpc]
    refine ⟨next, rfl, ?_⟩
    cases next with
    | none => exact hnext.1
    | some next =>
      obtain ⟨rest, hrest, hputs, -⟩ := hnext
      exact ⟨rest, lost, hrest, hputs⟩
  · cases next with
    | none => exact hnext.2
    | some next =>
      obtain ⟨rest, -, -, hleft⟩ := hnext
      exact hleft

/-- A worker starts up with an empty vector, or without. -/
theorem wp_startCode {i : Fin cfg.jobs} (hs : (pipelineLts cfg).Reachable s)
    (hpc : s.worker i = (cfg.startUp i).next) (htaken : s.taken i = []) :
    (startCode env i).wp (contract env s (.worker i)) 0 := by
  rw [startCode, Own.wp_bind]
  apply Own.wp_mono (wp_workerStart _ _)
  rintro r _ ⟨rfl, htakes, hvec⟩
  have hfits : ∀ a : Rest env, WorkerFits i [] (cfg.startUp i).next a →
      Fits s (.worker i) a := by
    intro a ha
    rwa [Fits, hpc, htaken]
  cases hu : cfg.startUp i with
  | ok =>
    rw [hu] at htakes hvec hfits
    obtain ⟨⟨t, vec⟩, rfl⟩ := Option.isSome_iff_exists.mp (htakes.mpr trivial)
    obtain ⟨hsome, hnew⟩ := hvec _ rfl
    obtain ⟨v, rfl⟩ := Option.isSome_iff_exists.mp (hsome.mpr rfl)
    exact ⟨hs, hfits _ ⟨t, v, rfl, [], rfl, by simp, congrArg some (hnew v rfl).symm⟩, rfl⟩
  | vecFails =>
    -- The worker has its tools but no vector, and will only free paths.
    rw [hu] at htakes hvec hfits
    obtain ⟨⟨t, vec⟩, rfl⟩ := Option.isSome_iff_exists.mp (htakes.mpr trivial)
    have hnone : vec = none := by simpa using (hvec _ rfl).1
    subst hnone
    exact ⟨hs, hfits _ ⟨t, rfl⟩, by simp [startOwned, Rest.owned]⟩
  | parserFails | cursorFails =>
    -- Without its tools it ends at once.
    rw [hu] at htakes hfits
    have hnone : r = none := by simpa [StartUp.TakesPaths] using htakes
    subst hnone
    exact ⟨hs, hfits _ rfl, rfl⟩

/-- A worker parses the path it has taken. -/
theorem wp_parseCode {i : Fin cfg.jobs} {k : ℕ} {before : List CStr} {turn : Turn} {t : Tools}
    {v : VecPtr} {p : PathPtr} (hs : (pipelineLts cfg).Reachable s)
    (hpc : s.worker i = .get ∨ s.worker i = .scan k) (htaken : s.taken i = before ++ [p.path])
    (hholds : env.Holds before v.value) (hmay : env.may p.path turn) :
    (parseCode env turn t v p).wp (contract env s (.worker i))
      (Rest.owned (.parsing t v p : Rest env)) := by
  rw [parseCode, Own.wp_bind]
  apply Own.wp_mono (wp_workerTurn _ _ p t v)
  rintro v' _ ⟨⟨rc, hparse⟩, rfl⟩
  have hnow : env.Holds (s.taken i) v'.value := htaken ▸ hholds.snoc hmay hparse
  refine ⟨hs, ?_, rfl⟩
  rcases hpc with hpc | hpc <;> rw [Fits, hpc] <;> exact ⟨t, v', rfl, hnow⟩

/-- A worker sorts its vector and removes the duplicates. -/
theorem wp_finishCode {i : Fin cfg.jobs} {t : Tools} {v : VecPtr}
    (hs : (pipelineLts cfg).Reachable s) (hpc : s.worker i = .put)
    (hholds : env.Holds (s.taken i) v.value) :
    (finishCode env t v).wp (contract env s (.worker i)) (Rest.owned (.ready t v : Rest env)) := by
  rw [finishCode, Own.wp_bind]
  apply Own.wp_call (wp_workerFinish env.qsort v) t.owned rfl
  rintro v' _ ⟨rfl, hstrict, hsub, hall⟩
  have hlines : ∃ vec, env.Holds (s.taken i) vec ∧
      (∀ p ∈ v'.vec.items, p.line ∈ vec.items) ∧
        ∀ line ∈ vec.items, ∃ p ∈ v'.vec.items, p.str = line.str := by
    refine ⟨v.value, hholds, fun p hp => List.mem_map_of_mem (hsub p hp), ?_⟩
    intro line hline
    obtain ⟨p, hp, rfl⟩ := List.mem_map.mp hline
    exact hall p hp
  refine ⟨hs, ?_, rfl⟩
  rw [Fits, hpc]
  exact ⟨t, ⟨i, s.taken i, v', hstrict, hlines⟩, rfl, rfl, rfl⟩

theorem wp_endCode {i : Fin cfg.jobs} {t : Tools} (hs : (pipelineLts cfg).Reachable s)
    (hpc : s.worker i = .done) : (endCode env t).wp (contract env s (.worker i)) t.owned := by
  rw [endCode, Own.wp_bind]
  apply Own.wp_mono (wp_workerEnd t)
  rintro _ _ rfl
  exact ⟨hs, by rw [Fits, hpc]; rfl, rfl⟩

/-- The merge thread writes the lines of its batches and frees them. -/
theorem wp_mergeCode {batches : List (Batch env)} (hs : (pipelineLts cfg).Reachable s)
    (hpc : s.merge = .write) (hroom : batches.length ≤ cfg.jobs) (hb : Collected s batches) :
    (mergeCode env batches).wp (contract env s .merge)
      (Rest.owned (.collecting batches : Rest env)) := by
  rw [mergeCode, Own.wp_bind]
  have hsorted : ∀ v ∈ batches.map Batch.ptr, v.vec.items.Pairwise fun a b => a.str ≤ b.str := by
    intro v hv
    obtain ⟨b, -, rfl⟩ := List.mem_map.mp hv
    exact b.strict.imp le_of_lt
  refine Own.wp_mono (wp_merge hsorted ?_) ?_
  · rwa [List.length_map, env.heap_length]
  · rintro out _ ⟨rfl, horder, hlines⟩
    rw [List.flatMap_map] at hlines
    exact ⟨hs, by rw [Fits, hpc]; exact ⟨out, rfl, horder, batches, hb, hlines⟩, rfl⟩

end Parts

/-! ### Steps of the process -/

variable {env}

/-- The vectors under way are still those of what their workers have taken. -/
theorem MailFits.taken_step {s s' : PipelineState cfg} {t : Tid cfg.jobs} (hinv : PipelineInv s)
    (hs : PipelineStep s t s') {mail : Multiset (Msg env)} (h : MailFits s mail) :
    ∀ b, Msg.vec b ∈ mail → b.taken = s'.taken b.worker := by
  intro b hb
  have hkey : Sum.inr b.worker ∈ mail.map Msg.key := Multiset.mem_map.mpr ⟨_, hb, rfl⟩
  rw [h.1] at hkey
  have hmem : b.worker ∈ s.outQueue.items := by simpa using hkey
  have hdone := ((hinv.collection.mem_iff _).mp (List.mem_append_left _ hmem)).1
  exact (h.2 b hb).trans (hs.taken_of_done hdone).symm

/-- A step that passes nothing on leaves the mail alone. -/
theorem MailFits.nothing {s s' : PipelineState cfg} {t : Tid cfg.jobs} (hinv : PipelineInv s)
    (hs : PipelineStep s t s') (hpass : Passed.nothing.Of s s') {mail : Multiset (Msg env)}
    (h : MailFits s mail) : MailFits s' mail :=
  ⟨by rw [h.1, hpass.1, hpass.2.1], h.taken_step hinv hs⟩

/-- What is left when a path has been taken from the queue. -/
theorem MailFits.gotPath {s s' : PipelineState cfg} {k : ℕ} {p : PathPtr}
    {hpath : cfg.paths[k]? = some p.path} {mail : Multiset (Msg env)}
    (h : MailFits s ({.path k p hpath} + mail)) (hpass : (Passed.gotPath k).Of s s') :
    mail.map Msg.key
      = (s'.queue.items : Multiset ℕ).map .inl + (s'.outQueue.items : Multiset _).map .inr := by
  have hkeys := h.1
  rw [Multiset.map_add, hpass.1, ← hpass.2, ← Multiset.cons_coe, Multiset.map_cons,
    ← Multiset.singleton_add, add_assoc] at hkeys
  exact add_left_cancel hkeys

section Steps

variable (hjobs : 1 ≤ cfg.jobs) (hcreate : ∀ i, cfg.createFails i = false)
include hjobs hcreate

/-- A thread that goes on. -/
theorem wp_resume {s s' : PipelineState cfg} {prog : Tid cfg.jobs → Code (Rest env)}
    {t : Tid cfg.jobs} {a : Rest env} {code : Code (Rest env)} {mail : Multiset (Msg env)}
    {held : Owns} (hs : (process env).Step s prog t (.resume a code) s') (hmail : MailFits s mail)
    (h : contract env s t a held) : MailFits s' mail ∧ code.wp (contract env s' t) held := by
  obtain ⟨hr, hfits, rfl⟩ := h
  have hinv := pipelineInv_reachable hjobs hcreate hr
  have hr' := hr.step hs.pipelineStep
  have hnothing : Passed.nothing.Of s s' := by cases hs <;> assumption
  refine ⟨hmail.nothing hinv hs.pipelineStep hnothing, ?_⟩
  cases hs with
  | enter _ _ hpc' _ =>
    -- The walks begin, with all paths before them.
    obtain ⟨lost, hputs⟩ := env.puts
    exact wp_walkCode env hr' hpc' (by rwa [List.drop_zero])
  | enqueued _ _ hpc' _ => exact ⟨hr', by rw [Fits, hpc']; rfl, rfl⟩
  | main _ _ hpc' _ _ _ => exact ⟨hr', (mainFits_iff hpc' _).mpr rfl, rfl⟩
  | @start _ i hs hpc hpc' _ =>
    rw [Fits, hpc] at hfits
    have htaken := hs.taken_eq (i := i) (Or.inr (by simp [hpc]))
    exact wp_startCode env hr' hpc' (htaken.trans hfits.2)
  | @getNull _ i t v hs hpc hpc' hpass =>
    -- The vector is sorted: it holds the lines of all paths taken.
    rw [Fits, hpc] at hfits
    obtain ⟨t', v', hrest, hholds⟩ := hfits
    obtain ⟨rfl, rfl⟩ := Rest.ready.inj hrest
    apply wp_finishCode env hr' hpc'
    rwa [PipelineState.taken, hpass.2.2.1]
  | @parse _ i k turn p t v hs hpc hpc' _ hpath hmay _ =>
    rw [Fits, hpc] at hfits
    obtain ⟨t', v', p', before, hrest, -, htaken, hholds⟩ := hfits
    obtain ⟨rfl, rfl, rfl⟩ := Rest.parsing.inj hrest
    have hsame := hs.taken_eq (i := i) (Or.inr (by simp [hpc]))
    exact wp_parseCode env hr' hpc' (hsame.trans htaken) hholds hmay
  | @scanned _ i k t v hs hpc hpc' _ =>
    rw [Fits, hpc] at hfits
    refine ⟨hr', ?_, rfl⟩
    rw [Fits, hpc', hs.taken_eq (i := i) (Or.inr (by simp [hpc]))]
    exact hfits
  | drainNull _ _ hpc' _ => exact wp_endCode env hr' hpc'
  | @collectNull _ batches hs hpc hpc' hpass =>
    rw [Fits, hpc] at hfits
    obtain ⟨batches', hrest, hb⟩ := hfits
    obtain rfl := Rest.collecting.inj hrest
    -- the heap has an entry for each worker, and no worker has two batches
    have hroom : batches.length ≤ cfg.jobs := by
      have hlen := congrArg List.length hb.1
      rw [List.length_map] at hlen
      exact hlen.trans_le hinv.length_batches_le
    exact wp_mergeCode env hr' hpc' hroom (hb.step hinv hs hpass.2.2.2)
  | write hs hpc hpc' hpass =>
    rw [Fits, hpc] at hfits
    obtain ⟨out, hrest, horder, batches, hb, hlines⟩ := hfits
    refine ⟨hr', ?_, rfl⟩
    rw [Fits, hpc']
    exact ⟨out, hrest, horder, batches, hb.step hinv hs hpass.2.2.2, hlines⟩

/-- A thread that sends: it owns the blocks of the message, and goes on without them. -/
theorem wp_send {s s' : PipelineState cfg} {prog : Tid cfg.jobs → Code (Rest env)}
    {t : Tid cfg.jobs} {a : Rest env} {m : Msg env} {code : Code (Rest env)}
    {mail : Multiset (Msg env)} {held : Owns} (hs : (process env).Step s prog t (.send a m code) s')
    (hmail : MailFits s mail) (h : contract env s t a held) : MailFits s' ({m} + mail) ∧
      ∃ rest, held = m.owned + rest ∧ code.wp (contract env s' t) rest := by
  obtain ⟨hr, hfits, rfl⟩ := h
  have hinv := pipelineInv_reachable hjobs hcreate hr
  have hr' := hr.step hs.pipelineStep
  cases hs with
  | @put _ k fuel p w hs hpc hpc' hpass hpath =>
    -- `main` hands the path it has found to the workers, and walks on.
    constructor
    · refine ⟨?_, fun b hb => hmail.taken_step hinv hs b (by simpa using hb)⟩
      rw [Multiset.map_add, hmail.1, hpass.1, hpass.2, ← Multiset.coe_add, Multiset.map_add]
      show {Sum.inl k} + _ = _ + {Sum.inl k} + _
      abel
    · rw [Fits, hpc] at hfits
      obtain ⟨next, hrest, hleft⟩ := hfits
      obtain rfl := Rest.walking.inj hrest
      obtain ⟨rest, lost, hdrop, hputs⟩ := hleft
      have hk : rest = cfg.paths.drop (k + 1) := by
        rw [← List.tail_drop, hdrop, List.tail_cons]
      exact ⟨w.stack.owned, rfl, wp_walkCode env hr' hpc' (hk ▸ hputs)⟩
  | @putVec _ t b hs hpc hpc' hpass htaken =>
    -- A worker hands its vector to the merge thread, and frees its tools.
    constructor
    · refine ⟨?_, ?_⟩
      · rw [Multiset.map_add, hmail.1, hpass.1, hpass.2, ← Multiset.coe_add, Multiset.map_add]
        show {Sum.inr b.worker} + _ = _ + (_ + {Sum.inr b.worker})
        abel
      · intro b' hb'
        rcases Multiset.mem_add.mp hb' with hb' | hb'
        · obtain rfl := Msg.vec.inj (Multiset.mem_singleton.mp hb')
          rw [hs.taken_eq (Or.inr (by simp [hpc]))]
          exact htaken
        · exact hmail.taken_step hinv hs b' hb'
    · exact ⟨t.owned, rfl, wp_endCode env hr' hpc'⟩

/-- A thread that receives goes on with the blocks of the message. -/
theorem wp_receive {s s' : PipelineState cfg} {prog : Tid cfg.jobs → Code (Rest env)}
    {t : Tid cfg.jobs} {a : Rest env} {m : Msg env} {code : Code (Rest env)}
    {mail : Multiset (Msg env)} {held : Owns}
    (hs : (process env).Step s prog t (.receive a m code) s') (hmail : MailFits s ({m} + mail))
    (h : contract env s t a held) :
    MailFits s' mail ∧ code.wp (contract env s' t) (m.owned + held) := by
  obtain ⟨hr, hfits, rfl⟩ := h
  have hinv := pipelineInv_reachable hjobs hcreate hr
  have hr' := hr.step hs.pipelineStep
  have htaken := hmail.taken_step hinv hs.pipelineStep
  have hrest : ∀ b, Msg.vec b ∈ mail → b.taken = s'.taken b.worker :=
    fun b hb => htaken b (Multiset.mem_add.mpr (Or.inr hb))
  cases hs with
  | @get _ i k p t v hs hpc hpc' hparsed hpass hpath =>
    refine ⟨⟨hmail.gotPath hpass, hrest⟩, hr', ?_, rfl⟩
    · rw [Fits, hpc] at hfits
      obtain ⟨t', v', hrest, hholds⟩ := hfits
      obtain ⟨rfl, rfl⟩ := Rest.ready.inj hrest
      rw [Fits, hpc']
      refine ⟨t, v, p, s.taken i, rfl, hpath, ?_, hholds⟩
      -- the path is the last it has taken, and its lines are still to come
      rw [PipelineState.taken, hparsed, List.filterMap_append]
      simp [PipelineState.taken, hpath]
  | @drain _ i k p t hs hpc hpc' hpass _ =>
    -- A worker without a vector frees the path.
    refine ⟨⟨hmail.gotPath hpass, hrest⟩, ?_⟩
    · rw [drainCode, Own.wp_bind]
      refine (Own.wp_release _ _).mpr ⟨hr', ?_, rfl⟩
      rw [Fits, hpc']
      exact ⟨_, rfl⟩
  | @collect _ batches b hs hpc hpc' hbatches hpass =>
    refine ⟨⟨?_, hrest⟩, hr', ?_, ?_⟩
    · have hkeys := hmail.1
      rw [Multiset.map_add, hpass.2, ← hpass.1, ← Multiset.cons_coe, Multiset.map_cons,
        ← Multiset.singleton_add, add_left_comm] at hkeys
      exact add_left_cancel hkeys
    · rw [Fits, hpc] at hfits
      obtain ⟨batches', hrest, hb⟩ := hfits
      obtain rfl := Rest.collecting.inj hrest
      rw [Fits, hpc']
      refine ⟨_, rfl, ?_, ?_⟩
      · rw [List.map_append, hb.1, hbatches]
        rfl
      · intro b' hb'
        rcases List.mem_append.mp hb' with hb' | hb'
        · -- The worker of an earlier batch has ended and takes no path any more.
          rw [hs.taken_of_done]
          · exact hb.2 b' hb'
          · have hmem : b'.worker ∈ s.batches := hb.1 ▸ List.mem_map_of_mem hb'
            exact ((hinv.collection.mem_iff _).mp (List.mem_append_right _ hmem)).1
        · obtain rfl := List.mem_singleton.mp hb'
          exact htaken b' (by simp)
    · simp only [Rest.owned, Msg.owned, List.map_append, List.map_cons, List.map_nil,
        vecsOwned_append, vecsOwned_cons, vecsOwned_nil]
      abel

/-- **The threads keep to their contracts.** -/
theorem process_keeps : (process env).Keeps Msg.owned MailFits (contract env) where
  resume hs hmail h := wp_resume hjobs hcreate hs hmail h
  send hs hmail h := wp_send hjobs hcreate hs hmail h
  receive hs hmail h := wp_receive hjobs hcreate hs hmail h
  others hs hu h := by
    obtain ⟨hr, hfits, hheld⟩ := h
    have hs' := ProcessStep.pipelineStep hs
    exact ⟨hr.step hs', hs'.fits_of_ne (pipelineInv_reachable hjobs hcreate hr) hu hfits, hheld⟩

omit hjobs hcreate in
/-- What the threads start with fits. -/
theorem contract_init (t : Tid cfg.jobs) :
    contract env (pipelineInit cfg) t (restInit env t) 0 := by
  refine ⟨.init rfl, ?_, ?_⟩
  · cases t with
    | main => rfl
    | worker i => exact ⟨rfl, rfl⟩
    | merge => exact ⟨[], rfl, rfl, fun b hb => absurd hb List.not_mem_nil⟩
  · cases t <;> rfl

omit hjobs hcreate in
theorem mailFits_init : MailFits (pipelineInit cfg) (0 : Multiset (Msg env)) :=
  ⟨rfl, fun _ hb => absurd hb (Multiset.notMem_zero _)⟩

/-- **In every reachable state the threads own disjoint blocks**, which with those of the
messages in the queues are all that is live. -/
theorem separated_of_reachable {blocks : Blocks Res} (hwf : blocks.Wf) {s : ProcessState env}
    (h : (processFrom env blocks).Reachable s) :
    Separated Msg.owned MailFits (contract env) blocks.live s := by
  refine Separated.reachable (process_keeps hjobs hcreate) (fun _ => 0) ?_ ?_ hwf (by simp) h
  · rintro s rfl
    exact mailFits_init
  · rintro s t rfl
    exact contract_init t

end Steps

end Tsag
