import Tsag.ProgramThreads

/-!
# The languages the workers parse with

A worker parses with the entry that `lang_cache_get` has returned to it.  Whatever the other
threads have done to the cache meanwhile, and however often a load has failed before, what it
has got is what a load of the language of its file has come to.

## Main definitions

* `EntriesOk` — what the workers know of the cache.

## Main results

* `program_parses_with_entry` — a worker past `lang_cache_get` has its answer.
-/

namespace Tsag

variable {cfg : Config}

/-- How a worker comes to be in `parse_file_lines`, and past `lang_cache_get` there. -/
theorem PipelineStep.parsing {s s' : PipelineState cfg} {t : Tid cfg.jobs}
    (hs : PipelineStep s t s') {i : Fin cfg.jobs} {k : ℕ}
    (hpc : s'.worker i = .parse k ∨ s'.worker i = .scan k) :
    (t ≠ .worker i ∧ s'.worker i = s.worker i) ∨ (t = .worker i ∧
      ((s.worker i = .get ∧ s'.worker i = .parse k) ∨ (s.worker i = .parse k ∧
        s'.worker i = .scan k ∧ (cfg.paths[k]?).bind findExtension ≠ none))) := by
  have hself : ∀ {f : Fin cfg.jobs → WorkerPc} {pc : WorkerPc},
      Function.update f i pc i = .parse k ∨ Function.update f i pc i = .scan k →
        pc = .parse k ∨ pc = .scan k := fun h => by rwa [Function.update_self] at h
  cases hs with
  | main hms =>
    -- `main` moves no worker but the one it creates, which is at its start.
    refine Or.inl ⟨nofun, ?_⟩
    cases hms with
    | @create j _ _ =>
      by_cases hij : i = j
      · subst hij
        rcases hself hpc with h | h <;> cases h
      · exact Function.update_of_ne hij ..
    | _ => rfl
  | merge _ hms => exact Or.inl ⟨nofun, congrFun hms.moves.2.1 i⟩
  | @worker _ j _ hws =>
    -- A step of another worker leaves this one where it is.
    by_cases hij : i = j
    · subst hij
      refine Or.inr ⟨rfl, ?_⟩
      cases hws with
      | start _ =>
        cases hup : cfg.startUp i <;> rw [hup] at hpc <;> rcases hself hpc with h | h <;> cases h
      | @get k' _ hget _ =>
        rcases hself hpc with h | h
        · cases h
          exact Or.inl ⟨hget, Function.update_self ..⟩
        · cases h
      | @langCacheGet k' hparse hext =>
        rcases hself hpc with h | h
        · cases h
        · cases h
          exact Or.inr ⟨hparse, Function.update_self .., hext⟩
      | drain hdrain _ => rcases hpc with h | h <;> cases hdrain.symm.trans h
      | getNull _ _ | noExtension _ _ | scanned _ | put _ _ | drainNull _ _ =>
        rcases hself hpc with h | h <;> cases h
    · refine Or.inl ⟨fun h => hij (Tid.worker.inj h).symm, ?_⟩
      cases hws with
      | drain _ _ => rfl
      | _ => exact Function.update_of_ne hij ..

/-- What the workers know of the cache: who has an answer is in `parse_file_lines`, who is past
`lang_cache_get` has one, and the answers are those for the extensions of the paths. -/
structure EntriesOk (loads : CStr → LangCalls Grammar → Prop) (s : ProgramPoint cfg) : Prop where
  parsing : ∀ i, s.entry i ≠ none →
    ∃ k, s.pipeline.worker i = .parse k ∨ s.pipeline.worker i = .scan k
  scanning : ∀ i k, s.pipeline.worker i = .scan k →
    s.entry i ≠ none ∧ (cfg.paths[k]?).bind findExtension ≠ none
  answer : ∀ i k ext r, (s.pipeline.worker i = .parse k ∨ s.pipeline.worker i = .scan k) →
    (cfg.paths[k]?).bind findExtension = some ext → s.entry i = some r →
      MayFind loads ext (s.lang.cache.find r) ∧ ∀ j, r = some j → j < s.lang.cache.entries.length

theorem entryInScope_of_parsing {pc : WorkerPc} {k : ℕ} (h : pc = .parse k ∨ pc = .scan k)
    (entry : Option (Option ℕ)) : entryInScope pc entry = entry := by
  rcases h with rfl | rfl <;> rfl

theorem parsing_of_entryInScope {pc : WorkerPc} {entry : Option (Option ℕ)}
    (h : entryInScope pc entry ≠ none) : ∃ k, pc = .parse k ∨ pc = .scan k := by
  cases pc with
  | parse k => exact ⟨k, Or.inl rfl⟩
  | scan k => exact ⟨k, Or.inr rfl⟩
  | _ => exact absurd rfl h

section Program

variable {env : ProgramEnv cfg}

/-- A worker leaves `lang_cache_get` behind with what has been answered. -/
theorem ProcessStep.answered {env : ProcessEnv cfg} {answered : Fin cfg.jobs → CStr → Turn → Prop}
    {s s' : PipelineState cfg} {prog : Tid cfg.jobs → Code (Rest env)} {i : Fin cfg.jobs}
    {act : Act Res (Msg env) (Rest env)} (hs : ProcessStep env answered s prog (.worker i) act s')
    {k : ℕ} (hpc : s.worker i = .parse k) : ∃ path turn, cfg.paths[k]? = some path ∧
      env.may path turn ∧ answered i path turn := by
  cases hs with
  | parse _ hpc' _ _ hpath hmay hanswer =>
    obtain rfl := WorkerPc.parse.inj (hpc.symm.trans hpc')
    exact ⟨_, _, hpath, hmay, hanswer⟩
  | start _ hpc' _ _ | get _ hpc' _ _ _ _ | getNull _ hpc' _ _ | scanned _ hpc' _ _
  | putVec _ hpc' _ _ _ | drain _ hpc' _ _ _ | drainNull _ hpc' _ _ => cases hpc.symm.trans hpc'

/-- The entries come from loads. -/
theorem loads_reachable {blocks : Blocks Res} {s : ProgramState env}
    (h : (programLts env blocks).Reachable s) : Loads env.loads s.proto.lang := by
  apply h.invariant (I := fun s => Loads env.loads s.proto.lang)
  · rintro s ⟨hinit, -⟩
    rw [hinit]
    exact .init ⟨rfl, fun _ => rfl⟩
  · intro s t s' hl hs
    rcases hs.op_or_proto with ⟨hproto, -⟩ | ⟨act, hact, -⟩
    · rwa [hproto]
    · obtain ⟨-, -, hsame⟩ | ⟨-, ⟨e, -, hact⟩, -⟩ := program_pairs.step hact
      · rwa [hsame]
      · exact hl.step hact

/-- **A step keeps what the workers know of the cache.** -/
theorem EntriesOk.step {s s' : ProgramPoint cfg} (h : EntriesOk env.loads s)
    {dl : CStr → Option Grammar} (hinv : LangInv dl s.lang) (hloads : Loads env.loads s.lang)
    {prog : Tid cfg.jobs → Code (Rest env.toProcessEnv × LangRest Grammar)} {t : Tid cfg.jobs}
    {act : Act Res (Msg env.toProcessEnv ⊕ EntryPtr Grammar)
      (Rest env.toProcessEnv × LangRest Grammar)}
    (hs : ProgramStep env s prog t act s') : EntriesOk env.loads s' := by
  cases hs with
  | @pipeline _ _ _ q hs _ =>
    -- A step of the pipeline answers nobody.
    have hps := hs.pipelineStep
    refine ⟨fun i hi => parsing_of_entryInScope hi, ?_, ?_⟩
    · intro i k hpc
      have hsame : entryInScope (q.worker i) (s.entry i) = s.entry i :=
        entryInScope_of_parsing (Or.inr hpc) _
      obtain ⟨-, hq⟩ | ⟨rfl, ⟨-, hq⟩ | ⟨hparse, -, hext⟩⟩ := hps.parsing (Or.inr hpc)
      · obtain ⟨hne, hext⟩ := h.scanning i k (hq.symm.trans hpc)
        exact ⟨ne_of_eq_of_ne hsame hne, hext⟩
      · cases hpc.symm.trans hq
      · -- it has come past the call, and so it has been answered
        obtain ⟨path, turn, hpath, -, hanswer⟩ := hs.answered hparse
        obtain ⟨ext, hext'⟩ := Option.ne_none_iff_exists'.mp hext
        have hfind : findExtension path = some ext := by
          rwa [hpath, Option.bind_some] at hext'
        obtain ⟨r, hr, -⟩ := hanswer ext hfind
        exact ⟨ne_of_eq_of_ne (hsame.trans hr) (Option.some_ne_none r), hext⟩
    · intro i k ext r hpc hext hr
      have hr' : s.entry i = some r := (entryInScope_of_parsing hpc _).symm.trans hr
      obtain ⟨-, hq⟩ | ⟨-, ⟨hget, -⟩ | ⟨hparse, -, -⟩⟩ := hps.parsing hpc
      · exact h.answer i k ext r (hq ▸ hpc) hext hr'
      · -- nobody has an answer before the call
        obtain ⟨k', hk | hk⟩ := h.parsing i (ne_of_eq_of_ne hr' (Option.some_ne_none r))
        · cases hget.symm.trans hk
        · cases hget.symm.trans hk
      · exact h.answer i k ext r (Or.inl hparse) hext hr'
  | @lookup i k ext e _ _ q hpc hext hnew hs hthread hcall =>
    -- One worker may have got an answer here.
    have hothers : ∀ {j}, j ≠ i → Function.update s.entry i e.answer j = s.entry j :=
      fun hji => Function.update_of_ne hji ..
    refine ⟨?_, ?_, ?_⟩
    · intro j hj
      by_cases hji : j = i
      · exact ⟨k, Or.inl (hji ▸ hpc)⟩
      · exact h.parsing j (ne_of_eq_of_ne (hothers hji).symm hj)
    · intro j k' hpc'
      have hji : j ≠ i := by
        rintro rfl
        cases hpc.symm.trans hpc'
      obtain ⟨hne, hext'⟩ := h.scanning j k' hpc'
      exact ⟨ne_of_eq_of_ne (hothers hji) hne, hext'⟩
    · intro j k' ext' r hpc' hext' hr
      by_cases hji : j = i
      · subst hji
        -- the answer is for the extension of its path
        obtain rfl : k = k' := by
          rcases hpc' with hpc' | hpc'
          · exact WorkerPc.parse.inj (hpc.symm.trans hpc')
          · cases hpc.symm.trans hpc'
        obtain rfl := Option.some.inj (hext.symm.trans hext')
        have hanswer : e.answer = some r := (Function.update_self j e.answer s.entry).symm.trans hr
        cases e with
        | ret u ext' r' =>
          obtain rfl := hcall ext' rfl
          obtain rfl := Option.some.inj hanswer
          exact hs.answer hinv hloads
        | _ => cases hanswer
      · -- another worker has changed the cache, but not the entries there were
        obtain ⟨dl', hlang⟩ := hs.langStep
        have hpre := hlang.entries_prefix
        obtain ⟨hfind, hlt⟩ := h.answer j k' ext' r hpc' hext' ((hothers hji).symm.trans hr)
        rw [← LangCache.find_of_prefix hpre hlt] at hfind
        exact ⟨hfind, fun i hi => (hlt i hi).trans_le hpre.length_le⟩

theorem entriesOk_reachable {blocks : Blocks Res} {s : ProgramState env}
    (h : (programLts env blocks).Reachable s) : EntriesOk env.loads s.proto := by
  obtain ⟨tr, h⟩ := h
  refine h.induction (P := fun _ s => EntriesOk env.loads s.proto) ?_ ?_
  · rintro s ⟨hinit, -⟩
    rw [hinit]
    exact ⟨fun i hi => absurd rfl hi, nofun, nofun⟩
  · intro tr s t s' he hok hs
    rcases hs.op_or_proto with ⟨hproto, -⟩ | ⟨act, hact, -⟩
    · rwa [hproto]
    · obtain ⟨dl, hinv⟩ := langFreeInv_reachable (reachable_langPc ⟨tr, he⟩)
      exact hok.step hinv (loads_reachable ⟨tr, he⟩) hact

/-- **A worker past `lang_cache_get` has its answer**: the extension of its path is known, and
what it has got is what a load of that language has come to. -/
theorem program_parses_with_entry {blocks : Blocks Res} {s : ProgramState env}
    (h : (programLts env blocks).Reachable s) {i : Fin cfg.jobs} {k : ℕ}
    (hpc : s.proto.pipeline.worker i = .scan k) : ∃ ext r,
      (cfg.paths[k]?).bind findExtension = some ext ∧ s.proto.entry i = some r ∧
        MayFind env.loads ext (s.proto.lang.cache.find r) := by
  have hok := entriesOk_reachable h
  obtain ⟨hentry, hext⟩ := hok.scanning i k hpc
  obtain ⟨ext, hext⟩ := Option.ne_none_iff_exists'.mp hext
  obtain ⟨r, hr⟩ := Option.ne_none_iff_exists'.mp hentry
  exact ⟨ext, r, hext, hr, (hok.answer i k ext r (Or.inr hpc) hext hr).1⟩

/-- What a worker has been answered it may parse with. -/
theorem exists_answered {blocks : Blocks Res} {s : ProgramState env}
    (h : (programLts env blocks).Reachable s) {i : Fin cfg.jobs} {k : ℕ} {path : CStr}
    (hpc : s.proto.pipeline.worker i = .parse k) (hpath : cfg.paths[k]? = some path)
    (hentry : findExtension path ≠ none → s.proto.entry i ≠ none) :
    ∃ turn, env.may path turn ∧ s.proto.Answered i path turn := by
  cases hext : findExtension path with
  | none =>
    obtain ⟨turn, hmay⟩ := env.exists_may path
    exact ⟨turn, hmay, fun ext hext' => by cases hext.symm.trans hext'⟩
  | some ext =>
    obtain ⟨r, hr⟩ := Option.ne_none_iff_exists'.mp (hentry (by simp [hext]))
    have hbind : (cfg.paths[k]?).bind findExtension = some ext := by
      rw [hpath, Option.bind_some, hext]
    obtain ⟨hfind, -⟩ := (entriesOk_reachable h).answer i k ext r (Or.inl hpc) hbind hr
    obtain ⟨turn, hmay, hturn⟩ := env.exists_may_find path ext _ hext hfind
    refine ⟨turn, hmay, fun ext' hext' => ⟨r, hr, ?_⟩⟩
    obtain rfl := Option.some.inj (hext.symm.trans hext')
    exact hturn

end Program

end Tsag
