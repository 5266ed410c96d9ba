import Tsag.ProcessMemory

/-!
# What the process writes

The merge thread has the vectors of the workers, each with the blocks of its lines, and
writes the lines of all.  Whatever the turns of the workers find, these are lines of matches
in files that the walks have found; and if they find what one corpus has of the files, and
memory, they are its tags.

## Main definitions

* `Turn.Finds` — a turn finds what a corpus has, and memory.

## Main results

* `turnsLoop_sound`, `turnsLoop_appends` — the lines of some turns.
* `Written.sound` — each line is that of a match in a source file under a path given.
* `Written.tags` — with memory, all tags of the files found are written.
* `ProcessEnv.paths_of_ample` — with memory for the walks, all files are found.
-/

namespace Tsag

variable {cfg : Config} {env : ProcessEnv cfg}

/-! ### The lines of the turns -/

/-- The turn finds what the corpus has of the path, and all the memory it asks for. -/
structure Turn.Finds (turn : Turn) (c : Corpus) (path : CStr) : Prop where
  agrees : turn.corpus.Agrees c path
  ample : ∀ j, (turn.mem j).Ample

/-- Turns that find what a corpus has append its lines, path by path. -/
theorem turnsLoop_appends {c : Corpus} (turns : List (CStr × Turn)) :
    ∀ vec : LineVec BuiltLine, (∀ x ∈ turns, x.2.Finds c x.1) →
      vec.items.length + turns.length * maxMatchesPerFile ≤ maxCap →
      ∃ vec' lines, turnsLoop turns vec = some vec' ∧ vec'.items = vec.items ++ lines ∧
        lines.map BuiltLine.str = (turns.map Prod.fst).flatMap c.lines := by
  induction turns with
  | nil => exact fun vec _ _ => ⟨vec, [], rfl, (List.append_nil _).symm, rfl⟩
  | cons x turns ih =>
    intro vec hfinds hroom
    obtain ⟨hx, hturns⟩ := List.forall_mem_cons.mp hfinds
    rw [List.length_cons, Nat.add_mul, Nat.one_mul] at hroom
    obtain ⟨rc, vec₁, lines, hparse, hitems, hlines, hlen⟩ :=
      parseFileLines_appends (c := c) hx.ample x.1 vec (by omega)
    rw [← parseFileLines_congr hx.agrees] at hparse
    have hroom₁ : vec₁.items.length + turns.length * maxMatchesPerFile ≤ maxCap := by
      rw [hitems, List.length_append]
      omega
    obtain ⟨vec', lines', hloop, hitems', hlines'⟩ := ih vec₁ hturns hroom₁
    refine ⟨vec', lines ++ lines', ?_, ?_, ?_⟩
    · rw [turnsLoop, List.foldlM_cons, hparse]
      exact hloop
    · rw [hitems', hitems, List.append_assoc]
    · rw [List.map_append, hlines, hlines', List.map_cons, List.flatMap_cons]

/-- The strings of a batch, if the turns of its worker have found what a corpus has. -/
theorem Batch.mem_strs_iff (b : Batch env) {c : Corpus}
    (hfinds : ∀ path turn, env.may path turn → turn.Finds c path)
    (hroom : b.taken.length * maxMatchesPerFile ≤ maxCap) (str : CStr) :
    str ∈ b.ptr.vec.items.map LinePtr.str ↔ ∃ path ∈ b.taken, str ∈ c.lines path := by
  obtain ⟨vec, ⟨turns, htaken, hall, hloop⟩, hsub, hcover⟩ := b.lines
  have hlen : turns.length = b.taken.length := by rw [← htaken, List.length_map]
  obtain ⟨vec', lines, hloop', hitems, hlines⟩ := turnsLoop_appends (c := c) turns
    (lineVecNew BuiltLine 128) (fun x hx => hfinds x.1 x.2 (hall x hx))
    (by simpa [lineVecNew, hlen] using hroom)
  obtain rfl : vec' = vec := Option.some.inj (hloop'.symm.trans hloop)
  obtain rfl : vec'.items = lines := hitems
  rw [htaken] at hlines
  rw [← List.mem_flatMap, ← hlines]
  simp only [List.mem_map]
  constructor
  · rintro ⟨p, hp, rfl⟩
    exact ⟨p.line, hsub p hp, rfl⟩
  · rintro ⟨line, hline, rfl⟩
    exact hcover line hline

/-! ### The lines written -/

variable {s : PipelineState cfg} {out : List BuiltLine}

/-- The paths put on the queue are what the walks have found. -/
theorem ProcessEnv.walked (env : ProcessEnv cfg)
    (hfin : ∀ root ∈ env.roots, {p | Listed env.fs root p}.Finite) :
    ∃ results, List.Forall₂ (Walked env.fs) env.roots results ∧
      cfg.paths = results.flatMap Prod.fst ∧
      walkPuts env.fs env.walkMem env.fuel (WalkState.init env.roots)
        = some (results.flatMap Prod.fst, results.flatMap Prod.snd) := by
  obtain ⟨lost, hputs⟩ := env.puts
  obtain ⟨results, hresults, turns, hturns⟩ :
      ∃ results, List.Forall₂ (Walked env.fs) env.roots results ∧
        ∃ turns, ∀ fuel, turns < fuel → walkPuts env.fs env.walkMem fuel (WalkState.init env.roots)
          = some (results.flatMap Prod.fst, [] ++ results.flatMap Prod.snd) :=
    walkPuts_walked env.roots hfin _ rfl rfl
  have hsame := walkPuts_mono (turns + 1) env.fuel hputs
  rw [hturns _ (by omega)] at hsame
  rw [hputs, ← hsame]
  exact ⟨results, hresults, ((Prod.mk.inj (Option.some.inj hsame)).1).symm, rfl⟩

/-- With ample memory for the walks, the paths put on the queue are those of all source files
under the paths given. -/
theorem ProcessEnv.paths_of_ample (env : ProcessEnv cfg)
    (hfin : ∀ root ∈ env.roots, {p | Listed env.fs root p}.Finite)
    (hmem : AmplePaths env.walkMem) :
    (∀ p, p ∈ cfg.paths ↔ ∃ root ∈ env.roots, Listed env.fs root p ∧ isSource env.fs p = true) ∧
      (Apart env.fs env.roots → cfg.paths.Nodup) := by
  obtain ⟨lost, hputs⟩ := env.puts
  obtain ⟨queues, ⟨turns, hqueues⟩, hrest⟩ := exists_mapM_enqueuePath hfin
  obtain ⟨turns', hturns'⟩ := walkPuts_of_ample hmem env.roots queues
    (hqueues (turns + 1) (by omega)) (WalkState.init env.roots) rfl rfl
  have hsame := walkPuts_mono (turns' + 1) env.fuel hputs
  rw [hturns' _ (by omega)] at hsame
  obtain ⟨hpaths, -⟩ := Prod.mk.inj (Option.some.inj hsame)
  rwa [← hpaths]

/-- With memory for the workers, the lines are those of the paths put on the queue, and each
is written once if the paths are all different. -/
theorem Written.lines (h : Written env s out) (hcfg : cfg.IsHealthy) (hjobs : 1 ≤ cfg.jobs)
    {c : Corpus} (hfinds : ∀ path turn, env.may path turn → turn.Finds c path)
    (hroom : cfg.paths.length * maxMatchesPerFile ≤ maxCap)
    (hr : (pipelineLts cfg).Reachable s) (hexit : s.Exited) :
    (∀ line, line ∈ out.map BuiltLine.str ↔ ∃ path ∈ cfg.paths, line ∈ c.lines path) ∧
      (cfg.paths.Nodup → out.Pairwise fun a b => a.str < b.str) := by
  obtain ⟨horder, batches, hcollected, hlines⟩ := h
  have hinv := pipelineInv_reachable hjobs hcfg.createFails hr
  have honce := hinv.parsedOnce_of_exited hcfg hjobs hexit
  -- the lines of a worker's paths, each once and in order
  choose strs _ hstrict hstrs using
    fun w => workerVec_eq (Qsort.mergeSort id) c.fileLines (s.taken w) 0
  have hbatch : ∀ b ∈ batches, b.ptr.vec.items.map LinePtr.str = (strs b.worker).items := by
    intro b hb
    have htaken := hcollected.2 b hb
    have hspace : b.taken.length * maxMatchesPerFile ≤ maxCap := by
      rw [htaken]
      exact (Nat.mul_le_mul_right _ (honce.length_taken_le _)).trans hroom
    apply List.Pairwise.eq_of_mem_iff (r := (· < ·)) (List.pairwise_map.mpr b.strict) (hstrict _)
    intro str
    rw [b.mem_strs_iff hfinds hspace, hstrs, List.mem_flatMap, htaken]
    rfl
  have hperm : (out.map BuiltLine.str).Perm (s.batches.flatMap fun w => (strs w).items) := by
    refine (hlines.map _).trans (List.Perm.of_eq ?_)
    rw [List.map_flatMap, ← hcollected.1, List.flatMap_map]
    apply List.flatMap_congr
    intro b hb
    rw [List.map_map]
    exact hbatch b hb
  obtain ⟨hall, hdistinct⟩ := lines_of_batches hcfg hjobs hr hexit (c := c) hstrict
    (fun w line => by rw [hstrs, List.mem_flatMap]; rfl) (List.pairwise_map.mpr horder) hperm
  exact ⟨hall, fun hnodup => List.pairwise_map.mp (hdistinct hnodup)⟩

/-- **With memory for the workers, all tags of the files found are written**: the lines are
those of the source files that are not under a path the walks have lost, in order, and each
once if no file is found twice. -/
theorem Written.tags (h : Written env s out) (hcfg : cfg.IsHealthy) (hjobs : 1 ≤ cfg.jobs)
    (hfin : ∀ root ∈ env.roots, {p | Listed env.fs root p}.Finite) {c : Corpus}
    (hfinds : ∀ path turn, env.may path turn → turn.Finds c path)
    (hroom : cfg.paths.length * maxMatchesPerFile ≤ maxCap)
    (hr : (pipelineLts cfg).Reachable s) (hexit : s.Exited) :
    ∃ results, List.Forall₂ (Walked env.fs) env.roots results ∧
      walkPuts env.fs env.walkMem env.fuel (WalkState.init env.roots)
        = some (results.flatMap Prod.fst, results.flatMap Prod.snd) ∧
      (∀ line, line ∈ out.map BuiltLine.str ↔ ∃ r ∈ results, ∃ (file : SourceFile)
        (ms : List (QueryMatch file.text)), file.path ∈ r.1 ∧ c.Parses file ms ∧
          line ∈ tagsOf file ms) ∧
      ((results.flatMap Prod.fst).Nodup → out.Pairwise fun a b => a.str < b.str) := by
  obtain ⟨results, hresults, hpaths, hputs⟩ := env.walked hfin
  obtain ⟨hall, hdistinct⟩ := h.lines hcfg hjobs hfinds hroom hr hexit
  refine ⟨results, hresults, hputs, ?_, fun hnodup => hdistinct (hpaths ▸ hnodup)⟩
  intro line
  rw [hall, hpaths]
  simp only [List.mem_flatMap, Corpus.mem_lines]
  constructor
  · rintro ⟨path, ⟨r, hr, hpath⟩, file, ms, rfl, hparses, hline⟩
    exact ⟨r, hr, file, ms, hpath, hparses, hline⟩
  · rintro ⟨r, hr, file, ms, hpath, hparses, hline⟩
    exact ⟨file.path, ⟨r, hr, hpath⟩, file, ms, rfl, hparses, hline⟩

end Tsag
