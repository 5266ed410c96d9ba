import Tsag.Lib.OwnPair
import Tsag.LangMemory
import Tsag.ProcessRuns

/-!
# The threads of the program

The whole program: the threads of the pipeline look languages up in the cache while they
parse.  So they follow two protocols, that of the pipeline and that of the cache, and a
worker parses with what the cache has answered it.

## Main definitions

* `ProgramEnv` — what the calls of a program come to.
* `ProgramPoint`, `ProgramStep`, `programLts` — the threads, in the pipeline and around the
  cache.
* `Looking` — only a worker that parses a path is inside `lang_cache_get`.

## Main results

* `program_separated` — in every reachable state the threads own disjoint blocks.
* `program_owns_nothing` — when `main` has joined them they own none.
-/

namespace Tsag

variable {cfg : Config}

/-- What the calls of a program come to: those of the process, and those of the loads of the
language cache. -/
structure ProgramEnv (cfg : Config) extends ProcessEnv cfg where
  /-- What the calls of a load of a language may come to. -/
  loads : CStr → LangCalls Grammar → Prop
  exists_loads : ∀ name, ∃ calls, loads name calls
  /-- The language that a call of `parse_file_lines` finds is one that a load has left. -/
  may_find : ∀ path turn ext, may path turn → findExtension path = some ext →
    MayFind loads ext (turn.corpus.langCacheGet ext)
  /-- Whatever a load has left may be found. -/
  exists_may_find : ∀ path ext lang, findExtension path = some ext → MayFind loads ext lang →
    ∃ turn, may path turn ∧ turn.corpus.langCacheGet ext = lang

/-- Where the threads are. -/
structure ProgramPoint (cfg : Config) where
  pipeline : PipelineState cfg
  lang : LangState (Tid cfg.jobs) Grammar
  /-- What `lang_cache_get` has returned to a worker, if it has in the call of
  `parse_file_lines` the worker is in: the index of an entry, or `NULL`. -/
  entry : Fin cfg.jobs → Option (Option ℕ)

/-- `entry` is a variable of `parse_file_lines`. -/
def entryInScope (pc : WorkerPc) (entry : Option (Option ℕ)) : Option (Option ℕ) :=
  match pc with
  | .parse _ | .scan _ => entry
  | _ => none

theorem entryInScope_none (pc : WorkerPc) : entryInScope pc none = none := by cases pc <;> rfl

/-- `lang_cache_get` has answered the worker what this turn finds. -/
def ProgramPoint.Answered (s : ProgramPoint cfg) (i : Fin cfg.jobs) (path : CStr)
    (turn : Turn) : Prop :=
  ∀ ext, findExtension path = some ext → ∃ r, s.entry i = some r ∧
    turn.corpus.langCacheGet ext = s.lang.cache.find r

section Program

variable (env : ProgramEnv cfg)

/-- A step of the pipeline by a thread outside `lang_cache_get`, or one of `lang_cache_get`
by a worker that is about to parse a path. -/
inductive ProgramStep (s : ProgramPoint cfg)
    (prog : Tid cfg.jobs → Code (Rest env.toProcessEnv × LangRest Grammar)) : Tid cfg.jobs →
      Act Res (Msg env.toProcessEnv ⊕ EntryPtr Grammar) (Rest env.toProcessEnv × LangRest Grammar) →
        ProgramPoint cfg → Prop
  | pipeline {t : Tid cfg.jobs} {act : Act Res (Msg env.toProcessEnv) (Rest env.toProcessEnv)}
      {b : LangRest Grammar} {q : PipelineState cfg}
      (hs : ProcessStep env.toProcessEnv s.Answered s.pipeline (fun u => (prog u).map Prod.fst)
        t act q)
      (houtside : s.lang.pc t = .outside) :
      ProgramStep s prog t (act.left b) ⟨q, s.lang, fun i => entryInScope (q.worker i) (s.entry i)⟩
  | lookup {i : Fin cfg.jobs} {k : ℕ} {ext : CStr} {e : LangEvent (Tid cfg.jobs)}
      {act : Act Res (EntryPtr Grammar) (LangRest Grammar)} {a : Rest env.toProcessEnv}
      {q : LangState (Tid cfg.jobs) Grammar} (hpc : s.pipeline.worker i = .parse k)
      (hext : (cfg.paths[k]?).bind findExtension = some ext) (hnew : s.entry i = none)
      (hs : LangMemStep env.loads s.lang e act q) (hthread : e.thread = .worker i)
      (hcall : ∀ ext', e.ext = some ext' → ext' = ext) :
      ProgramStep s prog (.worker i) (act.right a)
        ⟨s.pipeline, q, Function.update s.entry i e.answer⟩

/-- The threads of the program follow the pipeline and `lang_cache_get`. -/
def program : Protocol (ProgramPoint cfg) (Tid cfg.jobs) Res
    (Msg env.toProcessEnv ⊕ EntryPtr Grammar) (Rest env.toProcessEnv × LangRest Grammar) where
  Init s := s = ⟨pipelineInit cfg, ⟨⟨[], []⟩, fun _ => .outside⟩, fun _ => none⟩
  Step := ProgramStep env

/-- The state of the program. -/
abbrev ProgramState := OwnState (ProgramPoint cfg) (Tid cfg.jobs) Res
  (Msg env.toProcessEnv ⊕ EntryPtr Grammar) (Rest env.toProcessEnv × LangRest Grammar)

/-- `main` is about to create its first worker. -/
def programStart (blocks : Blocks Res) : ProgramState env where
  proto := ⟨pipelineInit cfg, ⟨⟨[], []⟩, fun _ => .outside⟩, fun _ => none⟩
  prog t := .ret (restInit env.toProcessEnv t, .outside)
  mail := 0
  blocks := blocks

/-- Every interleaving of the threads of the program, from the point where `main` is about to
create its first worker. -/
def programLts (blocks : Blocks Res) : Lts (ProgramState env) (Tid cfg.jobs) :=
  ownLts (program env) (fun t => .ret (restInit env.toProcessEnv t, .outside)) blocks

variable {env}

/-- The steps of the threads are those of the two protocols. -/
theorem program_pairs : (program env).Pairs (process env.toProcessEnv)
    (langMem (Tid cfg.jobs) env.loads) ProgramPoint.pipeline ProgramPoint.lang where
  init := by
    rintro q rfl
    exact ⟨rfl, rfl, fun _ => rfl⟩
  step {q q' prog t act} hs := by
    cases hs with
    | pipeline hs _ => exact .left rfl hs.process_step rfl
    | lookup _ _ _ hs hthread _ => exact .right rfl ⟨_, hthread, hs⟩ rfl

/-! ### Runs -/

/-- The program follows the pipeline. -/
theorem reachable_pipeline {blocks : Blocks Res} {s : ProgramState env}
    (h : (programLts env blocks).Reachable s) :
    (pipelineLts cfg).Reachable s.proto.pipeline := by
  apply h.invariant (I := fun s => (pipelineLts cfg).Reachable s.proto.pipeline)
  · rintro s ⟨hinit, -⟩
    rw [hinit]
    exact .init rfl
  · intro s t s' hr hs
    rcases hs.op_or_proto with ⟨hproto, -⟩ | ⟨act, hact, -⟩
    · rwa [hproto]
    · obtain ⟨-, hact, -⟩ | ⟨-, -, hsame⟩ := program_pairs.step hact
      · exact hr.step (ProcessStep.pipelineStep hact)
      · rwa [hsame]

/-- The program follows `lang_cache_get`. -/
theorem reachable_langPc {blocks : Blocks Res} {s : ProgramState env}
    (h : (programLts env blocks).Reachable s) :
    (langFreeLts (Tid cfg.jobs) Grammar).Reachable s.proto.lang := by
  apply h.invariant (I := fun s => (langFreeLts (Tid cfg.jobs) Grammar).Reachable s.proto.lang)
  · rintro s ⟨hinit, -⟩
    rw [hinit]
    exact .init ⟨rfl, fun _ => rfl⟩
  · intro s t s' hr hs
    rcases hs.op_or_proto with ⟨hproto, -⟩ | ⟨act, hact, -⟩
    · rwa [hproto]
    · obtain ⟨-, -, hsame⟩ | ⟨-, ⟨e, -, hact⟩, -⟩ := program_pairs.step hact
      · rwa [hsame]
      · exact hr.step hact.langStep

/-- Only a worker that is about to parse a path is inside `lang_cache_get`, for the extension
of the path and once. -/
def Looking (s : ProgramPoint cfg) : Prop :=
  ∀ t, s.lang.pc t ≠ .outside → ∃ i k ext, t = .worker i ∧ s.pipeline.worker i = .parse k ∧
    (cfg.paths[k]?).bind findExtension = some ext ∧ (s.lang.pc t).ext = some ext ∧
    s.entry i = none

/-- A worker that is about to parse a path stays so while others step. -/
theorem PipelineStep.parse_of_ne {s s' : PipelineState cfg} {t : Tid cfg.jobs}
    (hp : Phases s.main s) (hs : PipelineStep s t s') {i : Fin cfg.jobs} {k : ℕ}
    (ht : t ≠ .worker i) (hpc : s.worker i = .parse k) : s'.worker i = .parse k := by
  cases hs with
  | main hms =>
    cases hms with
    | @create j hmain _ =>
      have hji : i ≠ j := by
        rintro rfl
        have hnew := (hp.started i).mpr (by rw [hmain]; exact le_rfl)
        cases hpc.symm.trans hnew
      exact (Function.update_of_ne hji ..).trans hpc
    | _ => exact hpc
  | @worker _ j _ hws =>
    have hji : i ≠ j := fun he => ht (he ▸ rfl)
    cases hws with
    | drain _ _ => exact hpc
    | _ => exact (Function.update_of_ne hji ..).trans hpc
  | merge _ hms => cases hms <;> exact hpc

section Created

variable (hcreate : ∀ i, cfg.createFails i = false)
include hcreate

theorem looking_of_reachable {blocks : Blocks Res} {s : ProgramState env}
    (h : (programLts env blocks).Reachable s) : Looking s.proto := by
  obtain ⟨tr, h⟩ := h
  refine h.induction (P := fun _ s => Looking s.proto) ?_ ?_
  · rintro s ⟨hinit, -⟩ t ht
    rw [hinit] at ht
    exact absurd rfl ht
  · intro tr s t s' he hlook hs
    rcases hs.op_or_proto with ⟨hproto, -⟩ | ⟨act, hact, -⟩
    · rwa [hproto]
    · have hp := phases_reachable hcreate (reachable_pipeline ⟨tr, he⟩)
      intro u hu
      generalize hq : s'.proto = q at hact hu ⊢
      cases hact with
      | pipeline hs houtside =>
        -- A worker that is inside a call takes no step of the pipeline.
        obtain ⟨i, k, ext, rfl, hpc, hext, hcall, hnew⟩ := hlook u hu
        have ht : t ≠ .worker i := fun he => hu (he ▸ houtside)
        have hparse := (ProcessStep.pipelineStep hs).parse_of_ne hp ht hpc
        exact ⟨i, k, ext, rfl, hparse, hext, hcall,
          (congrArg (entryInScope _) hnew).trans (entryInScope_none _)⟩
      | @lookup i k ext e _ _ q hpc hext _ hlang hthread hcall =>
        -- Either the thread has moved itself, or another one has.
        obtain ⟨dl, hlang⟩ := hlang.langStep
        by_cases hui : u = e.thread
        · subst hui
          obtain ⟨hanswer, ⟨-, hsame⟩ | ⟨hinside, hsame⟩⟩ := hlang.ext_of_inside hu
          · -- it has just called
            obtain ⟨ext', hext'⟩ := Option.ne_none_iff_exists'.mp fun h =>
              hu (LangPc.ext_eq_none_iff.mp h)
            obtain rfl := hcall ext' (hsame.symm.trans hext')
            exact ⟨i, k, ext', hthread, hpc, hext, hext', (Function.update_self ..).trans hanswer⟩
          · obtain ⟨j, k', ext', hj, hpc', hext', hcall', -⟩ := hlook e.thread hinside
            obtain rfl := Tid.worker.inj (hthread.symm.trans hj)
            exact ⟨i, k', ext', hthread, hpc', hext', hsame.trans hcall',
              (Function.update_self ..).trans hanswer⟩
        · have hsame := hlang.ext_of_ne hui
          obtain ⟨j, k', ext', rfl, hpc', hext', hcall', hnew'⟩ := hlook u fun houtside =>
            hu (LangPc.ext_eq_none_iff.mp (hsame.trans (LangPc.ext_eq_none_iff.mpr houtside)))
          have hji : j ≠ i := fun he => hui (he ▸ hthread.symm)
          exact ⟨j, k', ext', rfl, hpc', hext', hsame.trans hcall',
            (Function.update_of_ne hji ..).trans hnew'⟩

/-- Which threads have nothing left to do in the pipeline. -/
theorem program_resting {blocks : Blocks Res} {s : ProgramState env}
    (h : (programLts env blocks).Reachable s) :
    Resting s.proto.pipeline fun t => (s.prog t).map Prod.fst := by
  obtain ⟨tr, h⟩ := h
  refine h.induction
    (P := fun _ s => Resting s.proto.pipeline fun t => (s.prog t).map Prod.fst) ?_ ?_
  · rintro ⟨proto, prog, mail, blocks⟩ ⟨rfl, rfl, -, -⟩
    exact .init
  · intro tr s t s' he hrest hs
    rcases hs.op_or_proto with ⟨hproto, hbusy, hothers⟩ | ⟨act, hact, hprog⟩
    · rw [hproto]
      exact hrest.op (fun h => (Own.atRest_map.mp h).elim fun a ha => hbusy a ha)
        fun u hu => congrArg (Own.map Prod.fst) (hothers u hu)
    · have hr := reachable_pipeline ⟨tr, he⟩
      have hothers : ∀ u, u ≠ t → (s'.prog u).map Prod.fst = (s.prog u).map Prod.fst :=
        fun u hu => by rw [hprog, Function.update_of_ne hu]
      generalize hq : s'.proto = q at hact ⊢
      cases hact with
      | @pipeline _ act b _ hs _ =>
        refine hrest.step hcreate hr hs.process_step (funext ?_)
        intro u
        by_cases hu : u = t
        · subst hu
          rw [hprog, Function.update_self, Function.update_self, Act.fst_left_code]
        · rw [hothers u hu, Function.update_of_ne hu]
      | @lookup i k _ _ _ _ _ hpc _ _ _ _ _ =>
        refine hrest.worker_op ?_ hothers
        intro hi
        cases hpc.symm.trans ((phases_reachable hcreate hr).joined i hi)

/-- **In every reachable state the threads own disjoint blocks**, by both protocols, and none
of those that `main` owned before. -/
theorem program_separated (hjobs : 1 ≤ cfg.jobs)
    (hmalloc : ∀ name calls, env.loads name calls → calls.malloc = true) {blocks : Blocks Res}
    (hwf : blocks.Wf) {s : ProgramState env}
    (h : (programLts env blocks).Reachable s) :
    Separated (Sum.elim Msg.owned EntryPtr.owned)
      (pairMail MailFits CacheHolds ProgramPoint.pipeline ProgramPoint.lang)
      (pairContract (contract env.toProcessEnv) langContract ProgramPoint.pipeline
        ProgramPoint.lang)
      blocks.live s := by
  refine Separated.reachable (program_pairs.keeps (process_keeps hjobs hcreate)
    (langMem_keeps hmalloc)) (fun _ => 0) ?_ ?_ hwf (by simp) h
  · rintro q rfl
    exact ⟨0, 0, rfl, mailFits_init, rfl⟩
  · rintro q t rfl
    exact ⟨0, 0, (add_zero 0).symm, contract_init t, rfl, rfl⟩

/-- When `main` has joined the threads, no thread owns anything. -/
theorem program_owns_nothing (hjobs : 1 ≤ cfg.jobs) {blocks : Blocks Res} {s : ProgramState env}
    (h : (programLts env blocks).Reachable s) {rc : ℕ}
    (hmain : s.proto.pipeline.main = .freeOut rc) {t : Tid cfg.jobs} {held : Owns}
    (ht : (s.prog t).wp (pairContract (contract env.toProcessEnv) langContract ProgramPoint.pipeline
      ProgramPoint.lang s.proto t) held) : held = 0 := by
  have hinv := pipelineInv_reachable hjobs hcreate (reachable_pipeline h)
  have hjoined : s.proto.pipeline.main.joined cfg.jobs = cfg.jobs := by rw [hmain]; rfl
  have houtside : s.proto.lang.pc t = .outside := by
    by_contra hpc
    obtain ⟨i, k, -, -, hparse, -⟩ := looking_of_reachable hcreate h t hpc
    cases hparse.symm.trans (hinv.of_joined hjoined i)
  have hmerge : s.proto.pipeline.main.mergeJoined = true ∨
      s.proto.pipeline.merge = .notStarted := by
    by_cases hrc : rc = 0
    · exact Or.inl (by rw [hmain, hrc]; rfl)
    · apply Or.inr
      rw [hinv.phases.merge_started, hmain]
      simp [MainPc.mergeCreated, hrc]
  refine contract_of_joined hinv (program_resting hcreate h) (by simp [hmain]) hjoined hmerge ?_
    (t := t)
  rw [Own.wp_map]
  apply Own.wp_mono ht
  rintro a _ ⟨held₁, held₂, rfl, hcontract, hlang⟩
  rw [langContract, houtside] at hlang
  obtain ⟨-, rfl⟩ := hlang
  rwa [add_zero]

end Created

end Program

end Tsag
