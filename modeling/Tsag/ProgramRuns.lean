import Tsag.Lib.Census
import Tsag.ProgramEntries

/-!
# The runs of the program

A thread that sleeps in `lang_cache_get` may wake up unasked, and then goes back to sleep;
this may go on for ever.  Otherwise the program comes to an end: until `main` has returned
some thread can go on without such a wake-up, and without them no run goes on for ever.

## Main definitions

* `Wakes` — a thread wakes up unasked.
* `LangPc.rank`, `programRank` — how far the threads are from their ends.

## Main results

* `LangInv.exists_awake` — some thread inside `lang_cache_get` is awake, if there is one.
* `wellFounded_awake` — the steps that are no such wake-ups come to an end.
* `program_runs_to_exit` — every run comes to its end, but for wake-ups.
-/

namespace Tsag

variable {cfg : Config}

/-! ### Inside the cache -/

section Lang

variable {T E : Type} {dl : CStr → Option E} {s s' : LangState T E}

/-- Where some thread is inside `lang_cache_get` one is that does not sleep. -/
theorem LangInv.exists_awake (h : LangInv dl s) {t : T} (ht : s.pc t ≠ .outside) :
    ∃ u, s.pc u ≠ .outside ∧ Tsag.loaded (s.pc u) = none := by
  cases hawake : Tsag.loaded (s.pc t) with
  | none => exact ⟨t, ht, hawake⟩
  | some pc =>
    -- it waits for a language that some thread is loading
    obtain ⟨ext, name, hpc, -⟩ := loaded_eq_some hawake
    obtain ⟨u, hu⟩ := (h.marked name).mp (h.waits t ext name hpc)
    refine ⟨u, ?_⟩
    cases hpc : s.pc u with
    | load _ _ | finish _ _ _ => exact ⟨nofun, rfl⟩
    | _ =>
      rw [hpc] at hu
      cases hu

variable [DecidableEq T]

/-- A thread inside that does not sleep can go on. -/
theorem exists_langStep_of_awake (dl : CStr → Option E) {t : T} (hinside : s.pc t ≠ .outside)
    (hawake : Tsag.loaded (s.pc t) = none) :
    ∃ e s', e.thread = t ∧ LangStep dl s e s' := by
  cases hpc : s.pc t with
  | outside => exact absurd hpc hinside
  | lookup ext name =>
    cases hl : langCacheLookup s.cache name with
    | hit i => exact ⟨_, _, rfl, .hit hpc hl⟩
    | wait => exact ⟨_, _, rfl, .wait hpc hl⟩
    | full => exact ⟨_, _, rfl, .full hpc hl⟩
    | mark c => exact ⟨_, _, rfl, .mark hpc hl⟩
  | asleep ext name =>
    rw [hpc] at hawake
    cases hawake
  | woken ext name => exact ⟨_, _, rfl, .recheck hpc⟩
  | load ext name => exact ⟨_, _, rfl, .load hpc⟩
  | finish ext name tmp => exact ⟨_, _, rfl, .finish hpc⟩

/-- A thread inside calls for no other extension, and returns for its own. -/
theorem LangStep.ext_of_call {e : LangEvent T} (hs : LangStep dl s e s')
    (hinside : s.pc e.thread ≠ .outside) {ext : CStr} (h : e.ext = some ext) :
    (s.pc e.thread).ext = some ext := by
  cases hs with
  | unknown hpc _ | call hpc _ => exact absurd hpc hinside
  | hit hpc _ | full hpc _ | finish hpc => exact (congrArg LangPc.ext hpc).trans h
  | wait _ _ | mark _ _ | recheck _ | load _ | spurious _ => cases h

/-- How far a thread is from the end of its call: a sleeper has as far to go as one that has
just looked, for it does not wake up of its own. -/
def LangPc.rank : LangPc E → ℕ
  | .outside | .woken _ _ => 5
  | .lookup _ _ => 4
  | .asleep _ _ => 3
  | .load _ _ => 2
  | .finish _ _ _ => 1

/-- Inside, a step that is no wake-up brings its thread nearer to the end. -/
theorem LangStep.rank_lt [Fintype T] {e : LangEvent T} (hs : LangStep dl s e s')
    (hstays : e.answer = none) (hawake : Tsag.loaded (s.pc e.thread) ≠ some (s'.pc e.thread)) :
    tally LangPc.rank s'.pc < tally LangPc.rank s.pc := by
  have hless : ∀ {t : T} {pc : LangPc E}, pc.rank < (s.pc t).rank →
      tally LangPc.rank (Function.update s.pc t pc) < tally LangPc.rank s.pc := by
    intro t pc hlt
    have hsum := tally_update LangPc.rank s.pc t pc
    omega
  cases hs with
  | unknown _ _ | hit _ _ | full _ _ | finish _ => cases hstays
  | call hpc _ | wait hpc _ | mark hpc _ | recheck hpc | load hpc =>
    exact hless (by simp [hpc, LangPc.rank])
  | @spurious t pc hwake =>
    exact absurd (hwake.trans (congrArg some (Function.update_self t pc s.pc).symm)) hawake

end Lang

section Program

variable {env : ProgramEnv cfg}

/-! ### The program comes to an end -/

/-- A thread wakes up unasked. -/
def Wakes (s : ProgramPoint cfg) (t : Tid cfg.jobs) (s' : ProgramPoint cfg) : Prop :=
  Tsag.loaded (s.lang.pc t) = some (s'.lang.pc t)

theorem not_wakes_of_awake {s s' : ProgramPoint cfg} {t : Tid cfg.jobs}
    (h : Tsag.loaded (s.lang.pc t) = none) : ¬ Wakes s t s' := by simp [Wakes, h]

/-- Nobody wakes up by staying where they are. -/
theorem not_wakes_self (s : ProgramPoint cfg) (t : Tid cfg.jobs) : ¬ Wakes s t s := by
  intro h
  obtain ⟨ext, name, hasleep, hwoken⟩ := loaded_eq_some h
  cases hasleep.symm.trans hwoken

/-- How far the program is from its end: first the pipeline, then the calls of
`lang_cache_get` that have yet to return. -/
def programRank (s : ProgramPoint cfg) : ℕ × ℕ × ℕ :=
  (pipelineRank s.pipeline, census (fun entry => entry = none) s.entry, tally LangPc.rank s.lang.pc)

/-- A step that is no wake-up brings the program nearer to its end. -/
theorem programRank_lt {s s' : ProgramPoint cfg}
    {prog : Tid cfg.jobs → Code (Rest env.toProcessEnv × LangRest Grammar)} {t : Tid cfg.jobs}
    {act : Act Res (Msg env.toProcessEnv ⊕ EntryPtr Grammar)
      (Rest env.toProcessEnv × LangRest Grammar)}
    (hs : ProgramStep env s prog t act s') (hawake : ¬ Wakes s t s') :
    Prod.Lex (· < ·) (Prod.Lex (· < ·) (· < ·)) (programRank s') (programRank s) := by
  cases hs with
  | @pipeline _ _ _ q hs _ =>
    exact .left _ _ (pipelineRank_step s.pipeline t q hs.pipelineStep)
  | @lookup i _ _ e _ _ q _ _ hnew hs hthread _ =>
    refine .right _ ?_
    cases hanswer : e.answer with
    | some r =>
      -- the call returns
      have hcount := census_update (fun entry => entry = none) s.entry i (some r)
      simp only [hnew, if_true, reduceCtorEq, if_false] at hcount
      exact .left _ _ (by dsimp only; omega)
    | none =>
      have hsame : Function.update s.entry i none = s.entry := by
        rw [← hnew, Function.update_eq_self]
      rw [hsame]
      obtain ⟨dl, hlang⟩ := hs.langStep
      exact .right _ (hlang.rank_lt hanswer (hthread ▸ hawake))

/-- The steps of the program that are no wake-ups. -/
def programAwake (env : ProgramEnv cfg) : Protocol (ProgramPoint cfg) (Tid cfg.jobs) Res
    (Msg env.toProcessEnv ⊕ EntryPtr Grammar) (Rest env.toProcessEnv × LangRest Grammar) where
  Init := (program env).Init
  Step s prog t act s' := ProgramStep env s prog t act s' ∧ ¬ Wakes s t s'

/-- The runs in which no thread wakes up unasked. -/
def awakeLts (env : ProgramEnv cfg) (blocks : Blocks Res) :
    Lts (ProgramState env) (Tid cfg.jobs) :=
  (programLts env blocks).without fun s t s' => Wakes s.proto t s'.proto

/-- They come to an end. -/
theorem wellFounded_awake (blocks : Blocks Res) : WellFounded fun s' s : ProgramState env =>
    ∃ t, (awakeLts env blocks).Step s t s' := by
  refine Subrelation.wf ?_ (wellFounded_ownStep (P := programAwake env) ?_)
  · rintro s' s ⟨t, hs, hawake⟩
    exact ⟨t, hs.of_proto fun _ hact => ⟨hact, hawake⟩⟩
  · refine Subrelation.wf ?_ (InvImage.wf programRank
      (Nat.lt_wfRel.wf.prod_lex (Nat.lt_wfRel.wf.prod_lex Nat.lt_wfRel.wf)))
    rintro q' q ⟨prog, t, act, hs, hawake⟩
    exact programRank_lt hs hawake

/-- A step of the threads that are awake is a step of the program. -/
theorem awake_step {s s' : ProgramState env} {t : Tid cfg.jobs} (blocks : Blocks Res)
    (hs : OwnStep (programAwake env) s t s') : (awakeLts env blocks).Step s t s' := by
  refine ⟨hs.of_proto fun _ hact => hact.1, ?_⟩
  show ¬ Wakes s.proto t s'.proto
  rcases hs.op_or_proto with ⟨hproto, -⟩ | ⟨act, hact, -⟩
  · rw [hproto]
    exact not_wakes_self s.proto t
  · exact hact.2

/-! ### The program goes on -/

/-- `main` has joined the threads, and returns `rc`. -/
def MainPc.Ended (rc : ℕ) (pc : MainPc) : Prop :=
  pc = .freeOut rc ∨ pc = .freeQueue rc ∨ pc = .freeCache rc ∨ pc = .exited rc

/-- It starts with `io_queue_free(&out_queue)`. -/
theorem PipelineStep.freeOut_of_ended {s s' : PipelineState cfg} {t : Tid cfg.jobs} {rc : ℕ}
    (hs : PipelineStep s t s') (hbefore : ¬ s.main.Ended rc) (hafter : s'.main.Ended rc) :
    s'.main = .freeOut rc := by
  cases hs with
  | worker _ hws => exact absurd (hws.moves.1 ▸ hafter) hbefore
  | merge _ hms => exact absurd (hms.moves.1 ▸ hafter) hbefore
  | main hms =>
    rcases hafter with h | h | h | h
    · exact h
    · cases hms with
      | freeOut hpc => exact absurd (Or.inl (hpc.trans (by cases h; rfl))) hbefore
      | _ => cases h
    · cases hms with
      | freeQueue hpc => exact absurd (Or.inr (Or.inl (hpc.trans (by cases h; rfl)))) hbefore
      | _ => cases h
    · cases hms with
      | freeCache hpc =>
        exact absurd (Or.inr (Or.inr (Or.inl (hpc.trans (by cases h; rfl))))) hbefore
      | _ => cases h

section Created

variable (hjobs : 1 ≤ cfg.jobs) (hcreate : ∀ i, cfg.createFails i = false)
  (hmalloc : ∀ name calls, env.loads name calls → calls.malloc = true)
include hjobs hcreate hmalloc

omit hjobs hcreate hmalloc in
/-- Each language may load in some way. -/
theorem ProgramEnv.exists_dl (env : ProgramEnv cfg) : ∃ dl : CStr → Option Grammar,
    ∀ name, ∃ calls, env.loads name calls ∧ calls.dl name = dl name := by
  choose calls hcalls using env.exists_loads
  exact ⟨fun name => (calls name).dl name, fun name => ⟨calls name, hcalls name, rfl⟩⟩

/-- A thread that rests can look a language up, if that is what it is about to do. -/
theorem exists_awake_of_lookup {blocks : Blocks Res} (hwf : blocks.Wf) {s : ProgramState env}
    (h : (programLts env blocks).Reachable s) {i : Fin cfg.jobs}
    (hrest : (s.prog (.worker i)).AtRest) {k : ℕ} {ext : CStr}
    (hpc : s.proto.pipeline.worker i = .parse k)
    (hext : (cfg.paths[k]?).bind findExtension = some ext) (hnew : s.proto.entry i = none)
    {dl : CStr → Option Grammar}
    (hdl : ∀ name, ∃ calls, env.loads name calls ∧ calls.dl name = dl name)
    {e : LangEvent (Tid cfg.jobs)} {q : LangState (Tid cfg.jobs) Grammar}
    (hs : LangStep dl s.proto.lang e q) (hthread : e.thread = .worker i)
    (hcall : ∀ ext', e.ext = some ext' → ext' = ext)
    (hawake : Tsag.loaded (s.proto.lang.pc (.worker i)) = none) :
    ∃ s', OwnStep (programAwake env) s (.worker i) s' := by
  obtain ⟨-, ⟨mail₁, mail₂, hmail, -, -⟩, held, -, hprog⟩ :=
    program_separated hcreate hjobs hmalloc hwf h
  obtain ⟨⟨a, b⟩, hab⟩ := hrest
  have ht := hprog (.worker i)
  rw [hab] at ht
  obtain ⟨_, _, -, -, hb⟩ := ht
  rw [← hthread] at hb
  obtain ⟨act, hact, hready⟩ := exists_langMemStep hs (fun _ name _ => hdl name) hb mail₂
  have hready' : (act.right a).Ready (a, b) s.mail := hmail ▸ Act.ready_right hready mail₁
  obtain ⟨s', hs', -⟩ : ∃ s', OwnStep (programAwake env) s (.worker i) s' ∧ _ :=
    exists_ownStep_of_ready hab hready'
      ⟨.lookup hpc hext hnew hact hthread hcall, not_wakes_of_awake hawake⟩
  exact ⟨s', hs'⟩

/-- When nobody is inside `lang_cache_get` the pipeline goes on, unless a worker is about to
call it. -/
theorem exists_awake_of_outside
    (htakes : (∃ i, (cfg.startUp i).TakesPaths) ∨ cfg.paths.length ≤ queueCapacity)
    {blocks : Blocks Res} (hwf : blocks.Wf) {s : ProgramState env}
    (h : (programLts env blocks).Reachable s) (hrun : ¬ s.proto.pipeline.Exited)
    (hrest : ∀ t, (s.prog t).AtRest) (houtside : ∀ t, s.proto.lang.pc t = .outside) :
    ∃ t s', OwnStep (programAwake env) s t s' := by
  by_cases hcalls : ∃ i k ext, s.proto.pipeline.worker i = .parse k ∧
      (cfg.paths[k]?).bind findExtension = some ext ∧ s.proto.entry i = none
  · -- it calls it
    obtain ⟨i, k, ext, hpc, hext, hnew⟩ := hcalls
    obtain ⟨dl, hdl⟩ := env.exists_dl
    have hout := houtside (.worker i)
    have hawake : Tsag.loaded (s.proto.lang.pc (.worker i)) = none := by rw [hout]; rfl
    refine ⟨.worker i, ?_⟩
    cases hlang : extToLang ext with
    | none =>
      have hs : LangStep dl s.proto.lang _ _ := .unknown hout hlang
      exact exists_awake_of_lookup hjobs hcreate hmalloc hwf h (hrest _) hpc hext hnew hdl hs rfl
        (fun _ => Eq.symm ∘ Option.some.inj) hawake
    | some name =>
      have hs : LangStep dl s.proto.lang _ _ := .call hout hlang
      exact exists_awake_of_lookup hjobs hcreate hmalloc hwf h (hrest _) hpc hext hnew hdl hs rfl
        (fun _ => Eq.symm ∘ Option.some.inj) hawake
  · -- who is about to parse has been answered
    have hinv := pipelineInv_reachable hjobs hcreate (reachable_pipeline h)
    obtain ⟨-, ⟨mail₁, mail₂, hmail, hfits, -⟩, held, -, hprog⟩ :=
      program_separated hcreate hjobs hmalloc hwf h
    obtain ⟨t, q, hs⟩ := hinv.canStep hcreate htakes hrun
    obtain ⟨⟨a, b⟩, hab⟩ := hrest t
    have ht := hprog t
    rw [hab] at ht
    obtain ⟨_, _, -, ⟨-, ha, -⟩, -⟩ := ht
    have hanswer : ∀ i k path, t = .worker i → s.proto.pipeline.worker i = .parse k →
        cfg.paths[k]? = some path →
          ∃ turn, env.may path turn ∧ s.proto.Answered i path turn := by
      intro i k path _ hpc hpath
      apply exists_answered h hpc hpath
      intro hext hnew
      obtain ⟨ext, hext⟩ := Option.ne_none_iff_exists'.mp hext
      exact hcalls ⟨i, k, ext, hpc, by rw [hpath, Option.bind_some, hext], hnew⟩
    obtain ⟨act, hact, hready⟩ := exists_processStep (fun u => (s.prog u).map Prod.fst) hinv.rings
      hfits (fun u => Own.atRest_map.mpr (hrest u)) ha hs hanswer
    have hready' : (act.left b).Ready (a, b) s.mail := hmail ▸ Act.ready_left hready mail₂
    have hawake : Tsag.loaded (s.proto.lang.pc t) = none := by rw [houtside t]; rfl
    obtain ⟨s', hs', -⟩ : ∃ s', OwnStep (programAwake env) s t s' ∧ _ :=
      exists_ownStep_of_ready hab hready'
        ⟨.pipeline hact (houtside t), not_wakes_of_awake hawake⟩
    exact ⟨t, s', hs'⟩

/-- **Until `main` has returned some thread can go on**, without having to wake up unasked. -/
theorem program_canStep
    (htakes : (∃ i, (cfg.startUp i).TakesPaths) ∨ cfg.paths.length ≤ queueCapacity)
    {blocks : Blocks Res} (hwf : blocks.Wf) {s : ProgramState env}
    (h : (programLts env blocks).Reachable s) (hrun : ¬ s.proto.pipeline.Exited) :
    (awakeLts env blocks).CanStep s := by
  suffices hgo : ∃ t s', OwnStep (programAwake env) s t s' by
    obtain ⟨t, s', hs⟩ := hgo
    exact ⟨t, s', awake_step blocks hs⟩
  by_cases hrest : ∀ t, (s.prog t).AtRest
  · by_cases houtside : ∀ t, s.proto.lang.pc t = .outside
    · exact exists_awake_of_outside hjobs hcreate hmalloc htakes hwf h hrun hrest houtside
    · obtain ⟨t, ht⟩ := not_forall.mp houtside
      obtain ⟨_, hinv⟩ := langFreeInv_reachable (reachable_langPc h)
      obtain ⟨dl, hdl⟩ := env.exists_dl
      obtain ⟨u, hinside, hawake⟩ := hinv.exists_awake ht
      obtain ⟨i, k, ext, rfl, hpc, hext, hcall, hnew⟩ := looking_of_reachable hcreate h u hinside
      obtain ⟨e, q, hthread, hs⟩ := exists_langStep_of_awake dl hinside hawake
      refine ⟨.worker i, exists_awake_of_lookup hjobs hcreate hmalloc hwf h (hrest _) hpc hext hnew
        hdl hs hthread ?_ hawake⟩
      intro ext' hext'
      rw [← hthread] at hinside hcall
      exact Option.some.inj ((hs.ext_of_call hinside hext').symm.trans hcall)
  · obtain ⟨t, ht⟩ := not_forall.mp hrest
    exact ⟨t, (program_separated hcreate hjobs hmalloc hwf h).canStep_of_busy
      (programAwake env) fun a ha => ht ⟨a, ha⟩⟩

/-- However far a run has got, `main` can still return. -/
theorem exists_run_to_exit
    (htakes : (∃ i, (cfg.startUp i).TakesPaths) ∨ cfg.paths.length ≤ queueCapacity)
    {blocks : Blocks Res} (hwf : blocks.Wf) {s : ProgramState env}
    (h : (programLts env blocks).Reachable s) :
    ∃ tr s', (programLts env blocks).Run s tr s' ∧ s'.proto.pipeline.Exited := by
  obtain ⟨tr, s', hr, hexit⟩ : ∃ tr s', (awakeLts env blocks).Run s tr s' ∧
      s'.proto.pipeline.Exited :=
    Lts.exists_run_to_final_of_wellFounded (wellFounded_awake blocks)
      (fun s h hrun => program_canStep hjobs hcreate hmalloc htakes hwf
        (Lts.reachable_of_without h) hrun) (.init h)
  exact ⟨tr, s', Lts.run_of_without hr, hexit⟩

/-- **Every run of the program comes to its end, but for wake-ups**: a run that goes on for
ever has threads wake up unasked again and again; until `main` has returned some thread can
go on without that; and however far a run has got, `main` can still return. -/
theorem program_runs_to_exit
    (htakes : (∃ i, (cfg.startUp i).TakesPaths) ∨ cfg.paths.length ≤ queueCapacity)
    {blocks : Blocks Res} (hwf : blocks.Wf) :
    (∀ (run : ℕ → ProgramState env) (thread : ℕ → Tid cfg.jobs),
      (∀ n, (programLts env blocks).Step (run n) (thread n) (run (n + 1))) →
        ∀ n, ∃ m, n ≤ m ∧ Wakes (run m).proto (thread m) (run (m + 1)).proto) ∧
    ∀ s, (programLts env blocks).Reachable s →
      (¬ s.proto.pipeline.Exited → ∃ t s', (programLts env blocks).Step s t s' ∧
        ¬ Wakes s.proto t s'.proto) ∧
      ∃ tr s', (programLts env blocks).Run s tr s' ∧ s'.proto.pipeline.Exited :=
  ⟨fun _ _ hrun n => Lts.exists_skip_of_infinite (wellFounded_awake blocks) hrun n,
    fun _ h => ⟨program_canStep hjobs hcreate hmalloc htakes hwf h,
      exists_run_to_exit hjobs hcreate hmalloc htakes hwf h⟩⟩

/-- Some run leads to where `main` has joined the threads. -/
theorem exists_freeOut (hmerge : cfg.mergeCreateFails = false)
    (htakes : ∃ i, (cfg.startUp i).TakesPaths) {blocks : Blocks Res} (hwf : blocks.Wf) :
    ∃ s : ProgramState env, (programLts env blocks).Reachable s ∧
      s.proto.pipeline.main = .freeOut 0 := by
  have hinit : (programLts env blocks).Reachable (programStart env blocks) :=
    .init ⟨rfl, rfl, rfl, rfl⟩
  obtain ⟨tr, s, hr, hexit⟩ := exists_run_to_exit hjobs hcreate hmalloc (Or.inl htakes) hwf hinit
  have hmain := (pipelineInv_reachable hjobs hcreate
    (reachable_pipeline (hinit.run hr))).exited_zero hmerge hexit
  obtain ⟨tr₁, s₁, t, s₂, hr₁, hs, hbefore, hafter⟩ :=
    hr.exists_enter (P := fun s => s.proto.pipeline.main.Ended 0)
      (by simp [MainPc.Ended, programStart, pipelineInit]) (by simp [MainPc.Ended, hmain])
  refine ⟨s₂, (hinit.run hr₁).step hs, ?_⟩
  rcases hs.op_or_proto with ⟨hproto, -⟩ | ⟨act, hact, -⟩
  · exact absurd (hproto ▸ hafter) hbefore
  · obtain ⟨-, hact, -⟩ | ⟨-, -, hsame⟩ := program_pairs.step hact
    · exact (ProcessStep.pipelineStep hact).freeOut_of_ended hbefore hafter
    · exact absurd (hsame ▸ hafter) hbefore

end Created

end Program

/-! ### A directory with one file -/

/-- Whatever a file turns out to be, its language may have been loaded as that. -/
theorem mayFind_loadsAny (ext : CStr) (c : Corpus) : MayFind loadsAny ext (c.langCacheGet ext) := by
  rw [Corpus.langCacheGet]
  cases hext : extToLang ext with
  | none => exact fun name hname => by cases hext.symm.trans hname
  | some name =>
    obtain ⟨calls, hmalloc, hdl⟩ := LangCalls.exists_dl_eq (extToLang_mem hext) (c.grammar name)
    rw [Option.bind_some]
    cases hlang : c.grammar name with
    | none =>
      intro name' hname'
      obtain rfl := Option.some.inj (hext.symm.trans hname')
      exact ⟨calls, hmalloc, hdl.trans hlang⟩
    | some lang => exact ⟨name, calls, hext, hmalloc, hdl.trans hlang⟩

theorem exists_loadsAny (name : CStr) : ∃ calls : LangCalls Grammar, loadsAny name calls :=
  ⟨⟨true, true, true, fun _ => none, true⟩, rfl⟩

theorem exists_turn_find {ext : CStr} {lang : Option Grammar} (h : MayFind loadsAny ext lang) :
    ∃ turn : Turn, True ∧ turn.corpus.langCacheGet ext = lang := by
  refine ⟨⟨⟨fun _ => lang, oneVariable.calls⟩, fun _ => Memory.plenty⟩, trivial, ?_⟩
  rw [Corpus.langCacheGet]
  cases hext : extToLang ext with
  | some name => rfl
  | none =>
    cases lang with
    | none => rfl
    | some handles =>
      obtain ⟨name, -, hname, -⟩ := h
      cases hext.symm.trans hname

theorem exists_turn (_ : CStr) : ∃ _ : Turn, True :=
  ⟨⟨oneVariable, fun _ => Memory.plenty⟩, trivial⟩

/-- Two workers in a directory with one file; loads come out as they like, and a turn finds
whatever that leaves. -/
def anyProgram (startUp : Fin 2 → StartUp) :
    ProgramEnv (Config.ofStartUp [CStr.lit "a.c"] startUp) where
  toProcessEnv :=
    { oneFileEnv startUp Memory.plenty with
      may := fun _ _ => True
      exists_may := exists_turn }
  loads := loadsAny
  exists_loads := exists_loadsAny
  may_find := fun _ turn ext _ _ => mayFind_loadsAny ext turn.corpus
  exists_may_find := fun _ _ _ _ h => exists_turn_find h

/-- Two workers with one file between them, and a cache from which languages load or do not, come
to the end. -/
theorem program_runs_to_exit_oneFile :
    (¬ ∃ (run : ℕ → ProgramState (anyProgram cursorFailsOnce)) (thread : ℕ → Tid 2),
      (∀ n, (programLts _ .empty).Step (run n) (thread n) (run (n + 1))) ∧
        ∀ m, ¬ Wakes (run m).proto (thread m) (run (m + 1)).proto) ∧
    ∃ tr s, (programLts (anyProgram cursorFailsOnce) .empty).Run (programStart _ .empty) tr s ∧
      s.proto.pipeline.Exited := by
  obtain ⟨hwakes, hend⟩ := @program_runs_to_exit _ (anyProgram cursorFailsOnce) (Nat.le_succ 1)
    (fun _ => rfl) (fun _ _ => id) (Or.inl (cursorFailsOnce_takes _)) _ Blocks.wf_empty
  refine ⟨?_, (hend (programStart _ .empty) (.init ⟨rfl, rfl, rfl, rfl⟩)).2⟩
  rintro ⟨run, thread, hrun, hawake⟩
  obtain ⟨m, -, hwake⟩ := hwakes run thread hrun 0
  exact hawake m hwake

end Tsag
