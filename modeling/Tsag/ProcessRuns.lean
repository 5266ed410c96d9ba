import Tsag.ProcessMemory

/-!
# The runs of the process

The threads of the process never touch a block they do not own, the process can always go
on until `main` has returned, and it does not go on for ever.  What is left in the end is
what is left in the queues; with a merge thread and a worker that takes paths, nothing.

## Main definitions

* `Resting` — which threads have nothing left to do.

## Main results

* `process_never_faults` — no thread touches or releases a block it does not own.
* `process_runs_to_exit` — every run comes to an end, and `main` has then returned.
* `process_live_of_exited`, `process_frees_everything` — what is left in the end.
-/

namespace Tsag

variable {cfg : Config} {env : ProcessEnv cfg}

/-- **The process follows the pipeline**: forgetting the blocks makes a run of the one a run
of the other. -/
theorem reachable_proto {blocks : Blocks Res} {s : ProcessState env}
    (h : (processFrom env blocks).Reachable s) :
    (pipelineLts cfg).Reachable s.proto := by
  apply h.invariant (I := fun s => (pipelineLts cfg).Reachable s.proto)
  · rintro s ⟨hinit, -⟩
    exact .init hinit
  · intro s t s' hr hs
    rcases hs.op_or_proto with ⟨hproto, -⟩ | ⟨act, hproto, -⟩
    · rwa [hproto]
    · exact hr.step (ProcessStep.pipelineStep hproto)

section Runs

variable (hjobs : 1 ≤ cfg.jobs) (hcreate : ∀ i, cfg.createFails i = false)
include hjobs hcreate

/-- **No thread faults**, in any state of any interleaving and whatever allocations fail: a
thread reads, writes and releases only blocks that are live, and leaves no array. -/
theorem process_never_faults {s : ProcessState env} (h : (processLts env).Reachable s)
    (t : Tid cfg.jobs) : ¬ s.Faults t :=
  (separated_of_reachable hjobs hcreate Blocks.wf_empty h).not_faults t

/-! ### The threads at rest -/

omit hjobs hcreate in
/-- A step of `main` joins the worker it waits for. -/
theorem MainStep.joined_lt {s s' : PipelineState cfg} (hs : MainStep s s')
    (hrange : s.main.InRange cfg.jobs cfg.paths.length) {i : Fin cfg.jobs}
    (hi : (i : ℕ) < s'.main.joined cfg.jobs) :
    (i : ℕ) < s.main.joined cfg.jobs ∨ ∃ merged, s.main = .join merged i := by
  cases hs with
  | @join merged j hpc _ =>
    rcases Nat.lt_or_eq_of_le (Nat.le_of_lt_succ hi) with hlt | heq
    · exact Or.inl (by rw [hpc]; exact hlt)
    · exact Or.inr ⟨merged, by rw [hpc, ← heq]⟩
  | abortCloseQueue hpc | abortCloseOut hpc =>
    rw [hpc] at hrange
    exact hrange.elim
  | create hpc _ | createFail hpc _ | created hpc | createMerge hpc _ | createMergeFail hpc _
  | put hpc _ _ | enqueued hpc | closeQueue hpc => exact absurd hi (Nat.not_lt_zero _)
  | joined hpc | closeOut hpc | closeOutFail hpc | joinMerge hpc _ | freeOut hpc | freeQueue hpc
  | freeCache hpc => exact Or.inl (by rw [hpc]; exact i.isLt)

omit hjobs hcreate in
/-- And the merge thread. -/
theorem MainStep.mergeJoined {s s' : PipelineState cfg} (hs : MainStep s s')
    (h : s'.main.mergeJoined = true) : s.main.mergeJoined = true ∨ s.main = .joinMerge := by
  cases hs with
  | joinMerge hpc _ => exact Or.inr hpc
  | freeOut hpc | freeQueue hpc | freeCache hpc => exact Or.inl (by rw [hpc]; exact h)
  | _ => cases h

omit hjobs hcreate in
/-- A merge thread that has been created stays created. -/
theorem MainStep.merge_new {s s' : PipelineState cfg} (hs : MainStep s s')
    (h : s'.merge = .notStarted) : s.merge = .notStarted := by
  cases hs with
  | createMerge _ _ => cases h
  | _ => exact h

/-- Which threads have nothing left to do: `main` but for its walks, the threads it has
joined, and the merge thread before it is created. -/
structure Resting (s : PipelineState cfg) (prog : Tid cfg.jobs → Code (Rest env)) : Prop where
  main : (∀ k, s.main ≠ .enqueue k) → prog .main = .ret .idle
  worker : ∀ i : Fin cfg.jobs, (i : ℕ) < s.main.joined cfg.jobs → (prog (.worker i)).AtRest
  merge : s.main.mergeJoined = true → (prog .merge).AtRest
  merge_new : s.merge = .notStarted → prog .merge = .ret (.collecting [])

omit hjobs hcreate in
theorem Resting.init : Resting (pipelineInit cfg) fun t => .ret (restInit env t) :=
  ⟨fun _ => rfl, fun _ hi => absurd hi (Nat.not_lt_zero _), nofun, fun _ => rfl⟩

omit hjobs hcreate in
/-- A thread that does not rest goes on. -/
theorem Resting.op {s : PipelineState cfg} {prog prog' : Tid cfg.jobs → Code (Rest env)}
    (h : Resting s prog) {t : Tid cfg.jobs} (hbusy : ¬ (prog t).AtRest)
    (hothers : ∀ u, u ≠ t → prog' u = prog u) : Resting s prog' := by
  have hsame : ∀ u, (prog u).AtRest → prog' u = prog u :=
    fun u hu => hothers u fun he => hbusy (he ▸ hu)
  refine ⟨?_, ?_, ?_, ?_⟩
  · intro hmain
    rw [hsame _ ⟨_, h.main hmain⟩, h.main hmain]
  · intro i hi
    rw [hsame _ (h.worker i hi)]
    exact h.worker i hi
  · intro hmerge
    rw [hsame _ (h.merge hmerge)]
    exact h.merge hmerge
  · intro hnew
    rw [hsame _ ⟨_, h.merge_new hnew⟩, h.merge_new hnew]

omit hjobs hcreate in
/-- A worker that has not been joined goes on. -/
theorem Resting.worker_op {s : PipelineState cfg} {prog prog' : Tid cfg.jobs → Code (Rest env)}
    (h : Resting s prog) {i : Fin cfg.jobs} (hi : ¬ (i : ℕ) < s.main.joined cfg.jobs)
    (hothers : ∀ u, u ≠ .worker i → prog' u = prog u) : Resting s prog' := by
  refine ⟨?_, ?_, ?_, ?_⟩
  · intro hmain
    rw [hothers .main nofun]
    exact h.main hmain
  · intro j hj
    rw [hothers (.worker j) fun he => hi (Tid.worker.inj he ▸ hj)]
    exact h.worker j hj
  · intro hmerge
    rw [hothers .merge nofun]
    exact h.merge hmerge
  · intro hnew
    rw [hothers .merge nofun]
    exact h.merge_new hnew

omit hjobs in
/-- **A thread that has nothing left to do gets nothing to do.** -/
theorem Resting.step {s s' : PipelineState cfg} {prog prog' : Tid cfg.jobs → Code (Rest env)}
    (h : Resting s prog) (hr : (pipelineLts cfg).Reachable s) {t : Tid cfg.jobs}
    {act : Act Res (Msg env) (Rest env)} (hact : (process env).Step s prog t act s')
    (hprog : prog' = Function.update prog t act.code) : Resting s' prog' := by
  have hp := phases_reachable hcreate hr
  have hothers : ∀ u, u ≠ t → prog' u = prog u := by
    intro u hu
    rw [hprog, Function.update_of_ne hu]
  have hps := ProcessStep.pipelineStep hact
  cases hps with
  | main hms =>
    -- Only `main` has moved; its step says which threads have to be at rest for it.
    refine ⟨?_, ?_, ?_, ?_⟩
    · intro hmain
      rw [hprog, Function.update_self]
      cases hact with
      | enter _ _ hpc' _ | put _ _ hpc' _ _ => exact absurd hpc' (hmain _)
      | enqueued _ _ _ _ | main _ _ _ _ _ _ => rfl
    · intro i hi
      rw [hothers (.worker i) nofun]
      -- `main` joins the worker only when it is at rest
      rcases hms.joined_lt hp.in_range hi with hi | ⟨merged, hjoin⟩
      · exact h.worker i hi
      · cases hact with
        | main _ _ _ _ hrest _ => exact hrest merged i hjoin
        | enter _ hpc _ _ | put _ hpc _ _ _ | enqueued _ hpc _ _ => cases hpc.symm.trans hjoin
    · intro hmerge
      rw [hothers .merge nofun]
      -- and so it is with the merge thread
      rcases hms.mergeJoined hmerge with hmerge | hjoin
      · exact h.merge hmerge
      · cases hact with
        | main _ _ _ _ _ hrest => exact hrest hjoin
        | enter _ hpc _ _ | put _ hpc _ _ _ | enqueued _ hpc _ _ => cases hpc.symm.trans hjoin
    · intro hnew
      rw [hothers .merge nofun]
      exact h.merge_new (hms.merge_new hnew)
  | @worker _ i _ hws =>
    obtain ⟨hmain, hmerge, -, -, -, -, -, -, hdone, -⟩ := hws.moves
    refine ⟨?_, ?_, ?_, ?_⟩
    · intro hpc
      rw [hothers .main nofun]
      exact h.main (hmain ▸ hpc)
    · intro j hj
      rw [hmain] at hj
      -- a worker that has been joined is done, and takes no step
      have hji : j ≠ i := fun he => hdone (he ▸ hp.joined j hj)
      rw [hothers (.worker j) fun he => hji (Tid.worker.inj he)]
      exact h.worker j hj
    · intro hjoined
      rw [hothers .merge nofun]
      exact h.merge (hmain ▸ hjoined)
    · intro hnew
      rw [hothers .merge nofun]
      exact h.merge_new (hmerge ▸ hnew)
  | merge _ hms =>
    obtain ⟨hmain, -, -, -, -, -, -, -, hdone, hnew'⟩ := hms.moves
    refine ⟨?_, ?_, ?_, fun hnew => absurd hnew hnew'⟩
    · intro hpc
      rw [hothers .main nofun]
      exact h.main (hmain ▸ hpc)
    · intro j hj
      rw [hothers (.worker j) nofun]
      exact h.worker j (hmain ▸ hj)
    · -- The merge thread has been joined, and takes no step.
      intro hjoined
      exact absurd (hp.merge_joined (hmain ▸ hjoined)) hdone

omit hjobs in
theorem resting_of_reachable {blocks : Blocks Res} {s : ProcessState env}
    (h : (processFrom env blocks).Reachable s) :
    Resting s.proto s.prog := by
  obtain ⟨tr, h⟩ := h
  refine h.induction (P := fun _ s => Resting s.proto s.prog) ?_ ?_
  · rintro ⟨proto, prog, mail, blocks⟩ ⟨rfl, rfl, -, -⟩
    exact .init
  · intro tr s _ _ he hrest hs
    rcases hs.op_or_proto with ⟨hproto, hbusy, hothers⟩ | ⟨act, hact, hprog⟩
    · rw [hproto]
      exact hrest.op (fun ⟨a, ha⟩ => hbusy a ha) hothers
    · exact hrest.step hcreate (reachable_proto ⟨tr, he⟩) hact hprog

/-! ### What is left in the end -/

omit hjobs hcreate in
/-- When `main` has joined the threads, no thread owns anything. -/
theorem contract_of_joined {s : PipelineState cfg} {prog : Tid cfg.jobs → Code (Rest env)}
    (hinv : PipelineInv s) (hrest : Resting s prog) (hmain : ∀ k, s.main ≠ .enqueue k)
    (hjoined : s.main.joined cfg.jobs = cfg.jobs)
    (hmerge : s.main.mergeJoined = true ∨ s.merge = .notStarted) {t : Tid cfg.jobs} {held : Owns}
    (ht : (prog t).wp (contract env s t) held) : held = 0 := by
  cases t with
  | main =>
    rw [hrest.main hmain] at ht
    obtain ⟨-, -, rfl⟩ := ht
    rfl
  | worker i =>
    -- it is done, and a worker that is done owns nothing
    have hi : (i : ℕ) < s.main.joined cfg.jobs := hjoined.symm ▸ i.isLt
    obtain ⟨a, ha⟩ := hrest.worker i hi
    rw [ha] at ht
    obtain ⟨-, hfits, hheld⟩ := ht
    rw [Fits, hinv.phases.joined i hi] at hfits
    rw [hheld, hfits]
    rfl
  | merge =>
    rcases hmerge with hmerge | hnew
    · -- It has written its lines and freed the vectors.
      obtain ⟨a, ha⟩ := hrest.merge hmerge
      rw [ha] at ht
      obtain ⟨-, hfits, hheld⟩ := ht
      rw [Fits, hinv.phases.merge_joined hmerge] at hfits
      obtain ⟨out, rfl, -⟩ := hfits
      exact hheld
    · -- It has never been created.
      rw [hrest.merge_new hnew] at ht
      obtain ⟨-, -, rfl⟩ := ht
      rfl

/-- When `main` has returned no thread owns anything. -/
theorem contract_of_exited {s : ProcessState env} (h : (processLts env).Reachable s)
    (hexit : s.proto.Exited) {t : Tid cfg.jobs} {held : Owns}
    (ht : (s.prog t).wp (contract env s.proto t) held) : held = 0 := by
  have hinv := pipelineInv_reachable hjobs hcreate (reachable_proto h)
  obtain ⟨rc, hmain⟩ := hexit
  refine contract_of_joined hinv (resting_of_reachable hcreate h) (by simp [hmain])
    (by rw [hmain]; rfl) ?_ ht
  by_cases hrc : rc = 0
  · exact Or.inl (by rw [hmain, hrc]; rfl)
  · apply Or.inr
    rw [hinv.phases.merge_started, hmain]
    simp [MainPc.mergeCreated, hrc]

/-- **What is left in the end is what is left in the queues**: when `main` has returned,
the live blocks are those of the paths still on the work queue and of the vectors still on
the merge queue. -/
theorem process_live_of_exited {s : ProcessState env} (h : (processLts env).Reachable s)
    (hexit : s.proto.Exited) : s.blocks.live = (s.mail.map Msg.owned).sum ∧
      s.mail.map Msg.key = (s.proto.queue.items : Multiset ℕ).map .inl
        + (s.proto.outQueue.items : Multiset _).map .inr := by
  obtain ⟨-, hmail, held, hlive, hprog⟩ := separated_of_reachable hjobs hcreate Blocks.wf_empty h
  have hnone : ∑ t, held t = 0 :=
    Finset.sum_eq_zero fun t _ => contract_of_exited hjobs hcreate h hexit (hprog t)
  rw [hnone, zero_add, show (Blocks.empty : Blocks Res).live = 0 from rfl, add_zero] at hlive
  exact ⟨hlive, hmail.1⟩

omit hjobs hcreate in
/-- With a merge thread and a worker that takes paths the queues are empty when `main` has
joined the threads. -/
theorem queues_empty_of_joined {s : PipelineState cfg} (hinv : PipelineInv s)
    (hjoined : s.main.joined cfg.jobs = cfg.jobs) (hmerge : s.main.mergeJoined = true)
    (htakes : ∃ i, (cfg.startUp i).TakesPaths) : s.queue.items = [] ∧ s.outQueue.items = [] := by
  obtain ⟨i, htakes⟩ := htakes
  have hdone := hinv.of_joined hjoined i
  exact ⟨(hinv.delivery.past_queue i (by rw [hdone]; exact htakes)).2,
    (hinv.collection.merge_past (Or.inr (hinv.phases.merge_joined hmerge))).2⟩

/-- **With a merge thread and a worker that takes paths nothing is left**: whatever the
interleaving, and whatever other start-ups and allocations fail, when `main` has returned
every block has been released. -/
theorem process_frees_everything (hmerge : cfg.mergeCreateFails = false)
    (htakes : ∃ i, (cfg.startUp i).TakesPaths) {s : ProcessState env}
    (h : (processLts env).Reachable s) (hexit : s.proto.Exited) : s.blocks.live = 0 := by
  obtain ⟨hlive, hkeys⟩ := process_live_of_exited hjobs hcreate h hexit
  have hinv := pipelineInv_reachable hjobs hcreate (reachable_proto h)
  have hmain := hinv.exited_zero hmerge hexit
  obtain ⟨hqueue, hout⟩ := queues_empty_of_joined hinv (by rw [hmain]; rfl)
    (by rw [hmain]; rfl) htakes
  rw [hqueue, hout] at hkeys
  have hnone : s.mail = 0 := by
    rw [← Multiset.map_eq_zero (f := Msg.key), hkeys]
    rfl
  rw [hlive, hnone]
  rfl

/-! ### The process goes on -/

omit hjobs hcreate in
/-- A path at the head of the queue is under way. -/
theorem MailFits.exists_path {s : PipelineState cfg} {mail : Multiset (Msg env)}
    (h : MailFits s mail) {k : ℕ} (hk : k ∈ s.queue.items) :
    ∃ p hpath rest, mail = {.path k p hpath} + rest := by
  have hkey : Sum.inl k ∈ mail.map Msg.key := by
    rw [h.1]
    simp [hk]
  obtain ⟨m, hm, hmk⟩ := Multiset.mem_map.mp hkey
  obtain ⟨rest, rfl⟩ := Multiset.exists_cons_of_mem hm
  cases m with
  | path k' p hpath =>
    obtain rfl := Sum.inl.inj hmk
    exact ⟨p, hpath, rest, (Multiset.singleton_add _ _).symm⟩
  | vec b => cases hmk

omit hjobs hcreate in
/-- And so is a vector. -/
theorem MailFits.exists_vec {s : PipelineState cfg} {mail : Multiset (Msg env)}
    (h : MailFits s mail) {i : Fin cfg.jobs} (hi : i ∈ s.outQueue.items) :
    ∃ b rest, b.worker = i ∧ mail = {.vec b} + rest := by
  have hkey : Sum.inr i ∈ mail.map Msg.key := by
    rw [h.1]
    simp [hi]
  obtain ⟨m, hm, hmk⟩ := Multiset.mem_map.mp hkey
  obtain ⟨rest, rfl⟩ := Multiset.exists_cons_of_mem hm
  cases m with
  | path k p hpath => cases hmk
  | vec b => exact ⟨b, rest, Sum.inr.inj hmk, (Multiset.singleton_add _ _).symm⟩

omit hjobs hcreate in
/-- **Threads at rest can do what the pipeline does next**: what a thread rests with and
what is under way are what it takes. -/
theorem exists_processStep {s : PipelineState cfg} (prog : Tid cfg.jobs → Code (Rest env))
    {answered : Fin cfg.jobs → CStr → Turn → Prop} {mail : Multiset (Msg env)} (hr : Rings s)
    (hmail : MailFits s mail) (hrest : ∀ t, (prog t).AtRest) {t : Tid cfg.jobs} {a : Rest env}
    (hfits : Fits s t a) {q : PipelineState cfg} (hs : PipelineStep s t q)
    (hanswer : ∀ i k path, t = .worker i → s.worker i = .parse k → cfg.paths[k]? = some path →
      ∃ turn, env.may path turn ∧ answered i path turn) :
    ∃ act, ProcessStep env answered s prog t act q ∧ act.Ready a mail := by
  have hs' := hs
  cases hs' with
  | main hms =>
    -- `main` rests with the path it is to put next, as its point says.
    rw [Fits] at hfits
    cases hms.move hr with
    | enter hpc hpc' hpass =>
      obtain rfl := (mainFits_iff (by simp [hpc]) a).mp hfits
      exact ⟨_, .enter hs hpc hpc' hpass, rfl⟩
    | put k hpc hpc' hk hpass =>
      rw [hpc] at hfits
      obtain ⟨next, rfl, hleft⟩ := hfits
      -- a path is left, so the walk has found one
      rw [List.drop_eq_getElem_cons hk] at hleft
      cases next with
      | none => cases hleft
      | some next =>
        obtain ⟨p, fuel, w⟩ := next
        obtain ⟨rest, lost, hdrop, -⟩ := hleft
        have hpath : cfg.paths[k]? = some p.path := by
          rw [List.getElem?_eq_getElem hk, (List.cons.inj hdrop).1]
        exact ⟨_, .put hs hpc hpc' hpass hpath, rfl⟩
    | enqueued hpc hpc' hpass =>
      rw [hpc] at hfits
      obtain ⟨next, rfl, hleft⟩ := hfits
      -- no path is left, so the walk has come to its end
      rw [List.drop_length] at hleft
      cases next with
      | none => exact ⟨_, .enqueued hs hpc hpc' hpass, rfl⟩
      | some next =>
        obtain ⟨rest, lost, hdrop, -⟩ := hleft
        cases hdrop
    | other hpc hpc' hpass =>
      obtain rfl := (mainFits_iff hpc a).mp hfits
      exact ⟨_, .main hs hpc hpc' hpass (fun _ i _ => hrest (.worker i)) fun _ => hrest .merge, rfl⟩
  | @worker _ i _ hws =>
    rw [Fits] at hfits
    cases hws.move hr with
    | start hpc hpc' hpass =>
      rw [hpc] at hfits
      obtain ⟨rfl, -⟩ := hfits
      exact ⟨_, .start hs hpc hpc' hpass, rfl⟩
    | get k hpc hpc' hparsed hpass =>
      rw [hpc] at hfits
      obtain ⟨t, v, rfl, -⟩ := hfits
      -- the work queue holds the path, and so it is in the mail
      obtain ⟨p, hpath, rest, hm⟩ := hmail.exists_path (by rw [hpass.1]; exact List.mem_cons_self)
      exact ⟨_, .get hs hpc hpc' hparsed hpass hpath, rfl, rest, hm⟩
    | getNull hpc hpc' hpass =>
      rw [hpc] at hfits
      obtain ⟨t, v, rfl, -⟩ := hfits
      exact ⟨_, .getNull hs hpc hpc' hpass, rfl⟩
    | parse k hpc hpc' hpass =>
      rw [hpc] at hfits
      obtain ⟨t, v, p, before, rfl, hpath, -, -⟩ := hfits
      -- what the call of `parse_file_lines` finds is up to it
      obtain ⟨turn, hmay, hturn⟩ := hanswer i k p.path rfl hpc hpath
      exact ⟨_, .parse hs hpc hpc' hpass hpath hmay hturn, rfl⟩
    | scanned k hpc hpc' hpass =>
      rw [hpc] at hfits
      obtain ⟨t, v, rfl, -⟩ := hfits
      exact ⟨_, .scanned hs hpc hpc' hpass, rfl⟩
    | put hpc hpc' hpass =>
      rw [hpc] at hfits
      obtain ⟨t, b, rfl, rfl, htaken⟩ := hfits
      exact ⟨_, .putVec hs hpc hpc' hpass htaken, rfl⟩
    | drain k hpc hpc' hpass =>
      rw [hpc] at hfits
      obtain ⟨t, rfl⟩ := hfits
      obtain ⟨p, hpath, rest, hm⟩ := hmail.exists_path (by rw [hpass.1]; exact List.mem_cons_self)
      exact ⟨_, .drain hs hpc hpc' hpass hpath, rfl, rest, hm⟩
    | drainNull hpc hpc' hpass =>
      rw [hpc] at hfits
      obtain ⟨t, rfl⟩ := hfits
      exact ⟨_, .drainNull hs hpc hpc' hpass, rfl⟩
  | merge _ hms =>
    rw [Fits] at hfits
    cases hms.move hr with
    | collect i hpc hpc' hbatches hpass =>
      rw [hpc] at hfits
      obtain ⟨batches, rfl, -⟩ := hfits
      -- the merge queue holds the vector of the worker
      obtain ⟨b, rest, rfl, hm⟩ := hmail.exists_vec (by rw [hpass.2]; exact List.mem_cons_self)
      exact ⟨_, .collect hs hpc hpc' hbatches hpass, rfl, rest, hm⟩
    | collectNull hpc hpc' hpass =>
      rw [hpc] at hfits
      obtain ⟨batches, rfl, -⟩ := hfits
      exact ⟨_, .collectNull hs hpc hpc' hpass, rfl⟩
    | write hpc hpc' hpass =>
      rw [hpc] at hfits
      obtain ⟨out, rfl, -⟩ := hfits
      exact ⟨_, .write hs hpc hpc' hpass, rfl⟩

omit hjobs hcreate in
/-- The process stops because the pipeline does. -/
theorem wellFounded_process (blocks : Blocks Res) :
    WellFounded fun s' s : ProcessState env => ∃ t, (processFrom env blocks).Step s t s' := by
  apply wellFounded_ownStep
  refine Subrelation.wf ?_ (InvImage.wf pipelineRank Nat.lt_wfRel.wf)
  rintro q' q ⟨prog, t, act, hs⟩
  exact pipelineRank_step q t q' (ProcessStep.pipelineStep hs)

/-- Until `main` has returned some thread can go on. -/
theorem process_canStep
    (htakes : (∃ i, (cfg.startUp i).TakesPaths) ∨ cfg.paths.length ≤ queueCapacity)
    {blocks : Blocks Res} (hwf : blocks.Wf) {s : ProcessState env}
    (h : (processFrom env blocks).Reachable s) (hrun : ¬ s.proto.Exited) :
    (processFrom env blocks).CanStep s := by
  by_cases hrest : ∀ t, (s.prog t).AtRest
  · have hinv := pipelineInv_reachable hjobs hcreate (reachable_proto h)
    obtain ⟨-, hmail, held, -, hprog⟩ := separated_of_reachable hjobs hcreate hwf h
    obtain ⟨t, q, hs⟩ := hinv.canStep hcreate htakes hrun
    obtain ⟨a, ha⟩ := hrest t
    have ht := hprog t
    rw [ha] at ht
    have hmay : ∀ i k path, t = .worker i → s.proto.worker i = .parse k →
        cfg.paths[k]? = some path → ∃ turn, env.may path turn ∧ True := fun _ _ path _ _ _ =>
      (env.exists_may path).imp fun _ h => ⟨h, trivial⟩
    obtain ⟨act, hact, hready⟩ :=
      exists_processStep s.prog hinv.rings hmail hrest ht.2.1 hs hmay
    obtain ⟨s', hs', -⟩ : ∃ s', OwnStep (process env) s t s' ∧ _ :=
      exists_ownStep_of_ready ha hready hact
    exact ⟨t, s', hs'⟩
  · obtain ⟨t, ht⟩ := not_forall.mp hrest
    obtain ⟨s', hs'⟩ := (separated_of_reachable hjobs hcreate hwf h).canStep_of_busy (process env)
      fun a ha => ht ⟨a, ha⟩
    exact ⟨t, s', hs'⟩

/-- **Every run of the process comes to an end, and `main` has then returned**: no run goes
on for ever, and a state from which none goes on is one in which `main` has returned. -/
theorem process_runs_to_exit
    (htakes : (∃ i, (cfg.startUp i).TakesPaths) ∨ cfg.paths.length ≤ queueCapacity) :
    (¬ ∃ run : ℕ → ProcessState env, ∀ n, ∃ t, (processLts env).Step (run n) t (run (n + 1))) ∧
      ∀ s, (processLts env).Reachable s → ¬ s.proto.Exited → (processLts env).CanStep s := by
  refine ⟨?_, fun s h hrun => process_canStep hjobs hcreate htakes Blocks.wf_empty h hrun⟩
  rintro ⟨run, hrun⟩
  exact (wellFounded_iff_isEmpty_descending_chain.mp (wellFounded_process .empty)).false ⟨run, hrun⟩

/-- Some run leads to the end. -/
theorem exists_exited (htakes : ∃ i, (cfg.startUp i).TakesPaths) {blocks : Blocks Res}
    (hwf : blocks.Wf) : ∃ s : ProcessState env, (processFrom env blocks).Reachable s ∧
      s.proto.Exited := by
  have hinit : (processFrom env blocks).Reachable
      ⟨pipelineInit cfg, fun t => .ret (restInit env t), 0, blocks⟩ := .init ⟨rfl, rfl, rfl, rfl⟩
  obtain ⟨tr, s, hr, hexit⟩ : ∃ tr s, (processFrom env blocks).Run _ tr s ∧ s.proto.Exited :=
    Lts.exists_run_to_final_of_wellFounded (wellFounded_process blocks)
      (fun s h hrun => process_canStep hjobs hcreate (Or.inl htakes) hwf h hrun) hinit
  exact ⟨s, hinit.run hr, hexit⟩

end Runs

/-! ### A directory with one file -/

theorem walkPuts_oneFile : walkPuts oneFile (fun _ => ⟨true, true⟩) 5
    (WalkState.init [CStr.lit "."]) = some ([CStr.lit "a.c"], []) := by decide +kernel

theorem puts_oneFile : ∃ lost, walkPuts oneFile (fun _ => ⟨true, true⟩) 5
    (WalkState.init [CStr.lit "."]) = some ([CStr.lit "a.c"], lost) := ⟨[], walkPuts_oneFile⟩

theorem two_le_intMax : 2 ≤ intMax := by decide

/-- The turn in which a file is as the corpus says. -/
def fixedTurns (c : Corpus) (mem : Memory) (_ : CStr) (turn : Turn) : Prop :=
  turn = ⟨c, fun _ => mem⟩

theorem exists_fixedTurns (c : Corpus) (mem : Memory) (path : CStr) :
    ∃ turn, fixedTurns c mem path turn := ⟨_, rfl⟩

/-- Two workers in a directory with one file, whose allocations all come to the same. -/
def oneFileEnv (startUp : Fin 2 → StartUp) (mem : Memory) :
    ProcessEnv (Config.ofStartUp [CStr.lit "a.c"] startUp) where
  fs := oneFile
  roots := [CStr.lit "."]
  fuel := 5
  walkMem := fun _ => ⟨true, true⟩
  may := fixedTurns oneVariable mem
  exists_may := exists_fixedTurns oneVariable mem
  structOk := fun _ => true
  qsort := Qsort.mergeSort LinePtr.str
  jobs_le := two_le_intMax
  heap := [⟨0, 0⟩, ⟨0, 0⟩]
  length_heap := length_twoHeap
  puts := puts_oneFile

theorem cursorFailsOnce_takes (paths : List CStr) :
    ∃ i, ((Config.ofStartUp paths cursorFailsOnce).startUp i).TakesPaths := ⟨(1 : Fin 2), trivial⟩

/-- A run of one worker of the two, without memory for lines, to its end. -/
theorem exists_exited_starved : ∃ s : ProcessState (oneFileEnv cursorFailsOnce Memory.starved),
    (processLts _).Reachable s ∧ s.proto.Exited :=
  exists_exited (Nat.le_succ 1) (fun _ => rfl) (cursorFailsOnce_takes _) Blocks.wf_empty

theorem process_never_faults_starved :
    ∃ s : ProcessState (oneFileEnv cursorFailsOnce Memory.starved), s.proto.Exited ∧
      ∀ t, ¬ s.Faults t := by
  obtain ⟨s, h, hexit⟩ := exists_exited_starved
  exact ⟨s, hexit, process_never_faults (Nat.le_succ 1) (fun _ => rfl) h⟩

theorem process_frees_everything_starved :
    ∃ s : ProcessState (oneFileEnv cursorFailsOnce Memory.starved), s.proto.Exited ∧
      s.blocks.live = 0 := by
  obtain ⟨s, h, hexit⟩ := exists_exited_starved
  exact ⟨s, hexit, process_frees_everything (Nat.le_succ 1) (fun _ => rfl) rfl
    (cursorFailsOnce_takes _) h hexit⟩

/-- No run goes on for ever, and some thread can go on from the start. -/
theorem process_runs_to_exit_starved :
    (¬ ∃ run : ℕ → ProcessState (oneFileEnv cursorFailsOnce Memory.starved),
      ∀ n, ∃ t, (processLts _).Step (run n) t (run (n + 1))) ∧
    ∃ s : ProcessState (oneFileEnv cursorFailsOnce Memory.starved),
      (processLts _).Reachable s ∧ ¬ s.proto.Exited ∧ (processLts _).CanStep s := by
  obtain ⟨hends, hprogress⟩ := @process_runs_to_exit _ (oneFileEnv cursorFailsOnce Memory.starved)
    (Nat.le_succ 1) (fun _ => rfl) (Or.inl (cursorFailsOnce_takes _))
  have hinit : (processLts (oneFileEnv cursorFailsOnce Memory.starved)).Reachable
      ⟨pipelineInit _, fun t => .ret (restInit _ t), 0, .empty⟩ := .init ⟨rfl, rfl, rfl, rfl⟩
  have hrun : ¬ (pipelineInit (Config.ofStartUp [CStr.lit "a.c"] cursorFailsOnce)).Exited := by
    rintro ⟨rc, ⟨⟩⟩
  exact ⟨hends, _, hinit, hrun, hprogress _ hinit hrun⟩

end Tsag
