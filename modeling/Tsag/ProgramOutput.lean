import Tsag.ProcessOutput
import Tsag.ProgramRuns

/-!
# What the program writes

When `main` has returned 0, the merge thread has written the lines of the vectors that the
workers have put on its queue.  Each is the line of a match in a file that some walk has
found, parsed with what a load of its language has come to; and if every turn finds what
one corpus has, the lines are all its tags but for what the walks have lost.

## Main definitions

* `fixedLoads` — loads that come out as a corpus says.

## Main results

* `program_written` — the merge thread has written the lines of its batches.
* `program_sound` — nothing but lines of matches in source files is written.
* `program_writes_tags` — with memory, all tags of the files found are written.
* `program_writes_all_tags` — with memory for the walks too, all tags are.
-/

namespace Tsag

variable {cfg : Config} {env : ProgramEnv cfg}

section Created

variable (hjobs : 1 ≤ cfg.jobs) (hcreate : ∀ i, cfg.createFails i = false)
  (hmalloc : ∀ name calls, env.loads name calls → calls.malloc = true)
include hjobs hcreate hmalloc

/-- **The merge thread has written the lines of its batches** when `main` has returned 0. -/
theorem program_written {blocks : Blocks Res} (hwf : blocks.Wf) {s : ProgramState env}
    (h : (programLts env blocks).Reachable s) (hmain : s.proto.pipeline.main = .exited 0) :
    ∃ out, s.prog .merge = .ret (.written out, .outside) ∧
      Written env.toProcessEnv s.proto.pipeline out := by
  have hinv := pipelineInv_reachable hjobs hcreate (reachable_pipeline h)
  have hjoined : s.proto.pipeline.main.mergeJoined = true := by rw [hmain]; rfl
  -- `main` has waited for it
  obtain ⟨⟨a, b⟩, hab⟩ := Own.atRest_map.mp ((program_resting hcreate h).merge hjoined)
  obtain ⟨-, -, held, -, hprog⟩ := program_separated hcreate hjobs hmalloc hwf h
  have ht := hprog .merge
  rw [hab] at ht
  obtain ⟨_, _, -, ⟨-, hfits, -⟩, hlang⟩ := ht
  rw [Fits, hinv.phases.merge_joined hjoined] at hfits
  obtain ⟨out, rfl, hwritten⟩ := hfits
  -- and it looks up no language
  have houtside : s.proto.lang.pc .merge = .outside := by
    by_contra hpc
    obtain ⟨i, -, -, hi, -⟩ := looking_of_reachable hcreate h .merge hpc
    cases hi
  rw [langContract, houtside] at hlang
  obtain ⟨rfl, -⟩ := hlang
  exact ⟨out, hab, hwritten⟩

end Created

/-- **All tags of the files found are written**, if every turn finds what one corpus has of its
path, and memory: the lines are those of the source files that are not under a path the walks
have lost, in order, and each once if no file is found twice. -/
theorem program_writes_tags (hcfg : cfg.IsHealthy) (hjobs : 1 ≤ cfg.jobs)
    (hmalloc : ∀ name calls, env.loads name calls → calls.malloc = true)
    (hfin : ∀ root ∈ env.roots, {p | Listed env.fs root p}.Finite) {c : Corpus}
    (hfinds : ∀ path turn, env.may path turn → turn.Finds c path)
    (hroom : cfg.paths.length * maxMatchesPerFile ≤ maxCap) {blocks : Blocks Res}
    (hwf : blocks.Wf) {s : ProgramState env} (h : (programLts env blocks).Reachable s)
    (hexit : s.proto.pipeline.Exited) :
    ∃ out results, s.prog .merge = .ret (.written out, .outside) ∧
      (out.Pairwise fun a b => a.str ≤ b.str) ∧
      List.Forall₂ (Walked env.fs) env.roots results ∧
      walkPuts env.fs env.walkMem env.fuel (WalkState.init env.roots)
        = some (results.flatMap Prod.fst, results.flatMap Prod.snd) ∧
      (∀ line, line ∈ out.map BuiltLine.str ↔ ∃ r ∈ results, ∃ (file : SourceFile)
        (ms : List (QueryMatch file.text)), file.path ∈ r.1 ∧ c.Parses file ms ∧
          line ∈ tagsOf file ms) ∧
      ((results.flatMap Prod.fst).Nodup → out.Pairwise fun a b => a.str < b.str) := by
  have hr := reachable_pipeline h
  have hmain := (pipelineInv_reachable hjobs hcfg.createFails hr).exited_zero
    hcfg.mergeCreateFails hexit
  obtain ⟨out, hprog, hwritten⟩ :=
    program_written hjobs hcfg.createFails hmalloc hwf h hmain
  obtain ⟨results, hresults, hputs, hlines, hstrict⟩ :=
    hwritten.tags hcfg hjobs hfin hfinds hroom hr hexit
  exact ⟨out, results, hprog, hwritten.1, hresults, hputs, hlines, hstrict⟩

/-- **With memory for the walks too, all tags are written**: whatever the interleaving of the
single operations, the lines are the tags of the source files under the paths given, in order,
and each once if no file lies under two of the paths. -/
theorem program_writes_all_tags (hcfg : cfg.IsHealthy) (hjobs : 1 ≤ cfg.jobs)
    (hmalloc : ∀ name calls, env.loads name calls → calls.malloc = true)
    (hfin : ∀ root ∈ env.roots, {p | Listed env.fs root p}.Finite)
    (hwalk : AmplePaths env.walkMem) {c : Corpus}
    (hfinds : ∀ path turn, env.may path turn → turn.Finds c path)
    (hroom : cfg.paths.length * maxMatchesPerFile ≤ maxCap) {blocks : Blocks Res}
    (hwf : blocks.Wf) {s : ProgramState env} (h : (programLts env blocks).Reachable s)
    (hexit : s.proto.pipeline.Exited) :
    ∃ out, s.prog .merge = .ret (.written out, .outside) ∧
      (out.Pairwise fun a b => a.str ≤ b.str) ∧
      (∀ line, line ∈ out.map BuiltLine.str ↔ IsTag env.fs c env.roots line) ∧
      (Apart env.fs env.roots → out.Pairwise fun a b => a.str < b.str) := by
  have hr := reachable_pipeline h
  have hmain := (pipelineInv_reachable hjobs hcfg.createFails hr).exited_zero
    hcfg.mergeCreateFails hexit
  obtain ⟨out, hprog, hwritten⟩ :=
    program_written hjobs hcfg.createFails hmalloc hwf h hmain
  obtain ⟨hall, hdistinct⟩ := hwritten.lines hcfg hjobs hfinds hroom hr hexit
  obtain ⟨hmem, hnodup⟩ := env.paths_of_ample hfin hwalk
  exact ⟨out, hprog, hwritten.1, fun line => (hall line).trans (exists_mem_lines_iff hmem),
    fun hapart => hdistinct (hnodup hapart)⟩

/-! ### Two workers and one file -/

/-- Every load of a language comes out as the corpus says. -/
def fixedLoads (c : Corpus) (_ : CStr) (calls : LangCalls Grammar) : Prop :=
  calls = ⟨true, true, true, c.grammar, true⟩

theorem mayFind_fixedLoads_iff (c : Corpus) (ext : CStr) (lang : Option Grammar) :
    MayFind (fixedLoads c) ext lang ↔ c.langCacheGet ext = lang := by
  have hdl : ∀ {name}, extToLang ext = some name →
      (LangCalls.mk true true true c.grammar true).dl name = c.grammar name := by
    intro name hname
    simp [LangCalls.dl, findQuery_of_mem (extToLang_mem hname)]
  rw [Corpus.langCacheGet]
  cases hext : extToLang ext with
  | none => cases lang <;> simp [MayFind, hext]
  | some name => cases lang <;> simp [MayFind, fixedLoads, hext, hdl hext]

theorem exists_fixedLoads (c : Corpus) (name : CStr) : ∃ calls, fixedLoads c name calls := ⟨_, rfl⟩

theorem mayFind_fixedTurns {c : Corpus} {mem : Memory} (path ext : CStr) {turn : Turn}
    (h : fixedTurns c mem path turn) :
    MayFind (fixedLoads c) ext (turn.corpus.langCacheGet ext) := by
  obtain rfl : turn = _ := h
  exact (mayFind_fixedLoads_iff c ext _).mpr rfl

theorem exists_fixedTurns_find {c : Corpus} {ext : CStr} {lang : Option Grammar} (mem : Memory)
    (path : CStr) (h : MayFind (fixedLoads c) ext lang) :
    ∃ turn, fixedTurns c mem path turn ∧ turn.corpus.langCacheGet ext = lang :=
  ⟨_, rfl, (mayFind_fixedLoads_iff c ext lang).mp h⟩

/-- Two workers in a directory with one file, and a language that loads. -/
def oneFileProgram : ProgramEnv (Config.ofStartUp [CStr.lit "a.c"] fun _ : Fin 2 => .ok) where
  toProcessEnv := oneFileEnv (fun _ => .ok) Memory.plenty
  loads := fixedLoads oneVariable
  exists_loads := exists_fixedLoads oneVariable
  may_find := fun path _ ext h _ => mayFind_fixedTurns path ext h
  exists_may_find := fun path _ _ _ h => exists_fixedTurns_find Memory.plenty path h

theorem malloc_fixedLoads {c : Corpus} (name : CStr) (calls : LangCalls Grammar)
    (h : fixedLoads c name calls) : calls.malloc = true := by
  obtain rfl : calls = _ := h
  rfl

theorem finds_fixedTurns (c : Corpus) (path : CStr) (turn : Turn)
    (h : fixedTurns c Memory.plenty path turn) : turn.Finds c path := by
  obtain rfl : turn = _ := h
  exact ⟨⟨fun _ _ => rfl, rfl⟩, fun _ => Memory.plenty_ample⟩

/-- Memory for the paths of a walk but the fourth. -/
def walkMemOnce (n : ℕ) : PathMemory := ⟨n ≠ 3, true⟩

theorem walkPuts_sourceTree : walkPuts sourceTree walkMemOnce 8
    (WalkState.init [CStr.lit "."]) = some ([CStr.lit "a.c"], [CStr.lit "lib"]) := by
  decide +kernel

theorem puts_sourceTree : ∃ lost, walkPuts sourceTree walkMemOnce 8
    (WalkState.init [CStr.lit "."]) = some ([CStr.lit "a.c"], lost) := ⟨_, walkPuts_sourceTree⟩

/-- A walk that gets no memory for the path of a directory. -/
def lostLibProgram : ProgramEnv (Config.ofStartUp [CStr.lit "a.c"] fun _ : Fin 2 => .ok) where
  toProcessEnv :=
    { oneFileEnv (fun _ => .ok) Memory.plenty with
      fs := sourceTree
      fuel := 8
      walkMem := walkMemOnce
      puts := puts_sourceTree }
  loads := fixedLoads oneVariable
  exists_loads := exists_fixedLoads oneVariable
  may_find := fun path _ ext h _ => mayFind_fixedTurns path ext h
  exists_may_find := fun path _ _ _ h => exists_fixedTurns_find Memory.plenty path h

/-- Some run leads to the end. -/
theorem exists_exited_zero
    {env : ProgramEnv (Config.ofStartUp [CStr.lit "a.c"] fun _ : Fin 2 => .ok)}
    (hmalloc : ∀ name calls, env.loads name calls → calls.malloc = true) :
    ∃ s : ProgramState env, (programLts env .empty).Reachable s ∧
      s.proto.pipeline.main = .exited 0 := by
  have htakes : ∃ i, ((Config.ofStartUp [CStr.lit "a.c"] fun _ : Fin 2 => .ok).startUp
      i).TakesPaths := ⟨(0 : Fin 2), trivial⟩
  have hinit : (programLts env .empty).Reachable (programStart _ .empty) :=
    .init ⟨rfl, rfl, rfl, rfl⟩
  obtain ⟨tr, s, hr, hexit⟩ := exists_run_to_exit (Nat.le_succ 1) (fun _ => rfl) hmalloc
    (Or.inl htakes) Blocks.wf_empty hinit
  have h := hinit.run hr
  exact ⟨s, h, (pipelineInv_reachable (Nat.le_succ 1) (fun _ => rfl)
    (reachable_pipeline h)).exited_zero rfl hexit⟩

/-- The directory is lost with the file in it, and the tag of the other file is written. -/
theorem program_writes_tags_lostLib : ∃ (s : ProgramState lostLibProgram) (out : List BuiltLine),
    (programLts lostLibProgram .empty).Reachable s ∧ s.proto.pipeline.main = .exited 0 ∧
      s.prog .merge = .ret (.written out, .outside) ∧
      (∀ line, line ∈ out.map BuiltLine.str ↔ line = variableLine) ∧
      ∃ r, Walked sourceTree (CStr.lit ".") r ∧ r.1 = [CStr.lit "a.c"] ∧
        r.2 = [CStr.lit "lib"] := by
  obtain ⟨s, h, hmain⟩ := @exists_exited_zero lostLibProgram malloc_fixedLoads
  obtain ⟨out, results, hprog, -, hwalked, hputs, hlines, -⟩ := program_writes_tags
    (Config.isHealthy_healthy 2 [CStr.lit "a.c"]) (Nat.le_succ 1) malloc_fixedLoads
    sourceTree_finite (finds_fixedTurns oneVariable) (by decide) Blocks.wf_empty h ⟨0, hmain⟩
  obtain ⟨hfound, hlost⟩ := Prod.mk.inj (Option.some.inj (hputs.symm.trans walkPuts_sourceTree))
  obtain ⟨r, hr, rfl⟩ : ∃ r, Walked sourceTree (CStr.lit ".") r ∧ results = [r] := by
    cases hwalked with
    | cons hr hnil =>
      cases hnil
      exact ⟨_, hr, rfl⟩
  rw [List.flatMap_singleton] at hfound hlost
  refine ⟨s, out, h, hmain, hprog, ?_, r, hr, hfound, hlost⟩
  intro line
  rw [hlines, ← List.mem_singleton, ← oneVariable_lines, Corpus.mem_lines]
  simp only [List.mem_singleton, exists_eq_left, hfound]

/-- The one tag of the directory is written. -/
theorem program_writes_all_tags_oneFile :
    ∃ (s : ProgramState oneFileProgram) (out : List BuiltLine),
      (programLts oneFileProgram .empty).Reachable s ∧ s.proto.pipeline.main = .exited 0 ∧
        s.prog .merge = .ret (.written out, .outside) ∧
        (∀ line, line ∈ out.map BuiltLine.str ↔ line = variableLine) ∧
        out.Pairwise fun a b => a.str < b.str := by
  obtain ⟨s, h, hmain⟩ := @exists_exited_zero oneFileProgram malloc_fixedLoads
  obtain ⟨out, hprog, -, hlines, hstrict⟩ := program_writes_all_tags
    (Config.isHealthy_healthy 2 [CStr.lit "a.c"]) (Nat.le_succ 1) malloc_fixedLoads oneFile_finite
    (fun _ => ⟨rfl, rfl⟩) (finds_fixedTurns oneVariable) (by decide) Blocks.wf_empty h ⟨0, hmain⟩
  exact ⟨s, out, h, hmain, hprog, fun line => (hlines line).trans (isTag_oneFile_iff line),
    hstrict oneFile_apart⟩

end Tsag
