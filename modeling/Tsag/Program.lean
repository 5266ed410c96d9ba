import Tsag.Discover
import Tsag.Execution
import Tsag.MatchFailures
import Tsag.Worker

/-!
# What the program writes

All parts together: the walks under the paths given on the command line fill the work
queue, the workers parse what they take from it, in whichever way the threads
interleave, and the merge thread writes the lines of their vectors.

## Main definitions

* `enqueuePaths` — what `main` has put on the work queue in the end.
* `writtenLines`, `PipelineState.written` — the lines the merge thread writes.
* `IsTag` — a line of a source file under one of the paths.

## Main results

* `writtenLines_bytes` — the program writes the tags file of `Corpus.fileLines`.
* `exists_enqueuePaths` — the walks end, and what they find.
* `execution_writes_tags` — every execution writes the tags of the source files.
* `execution_sound` — what it writes when start-ups and allocations fail.
-/

namespace Tsag

section Workers

variable {ι : Type}

/-- The lines `merge` writes when the vectors of these workers reach it in this order,
`mem w` being what the allocations of a worker come to. -/
def writtenLines (qsort : Qsort BuiltLine (compareLines BuiltLine.str)) (c : Corpus)
    (mem : ι → ℕ → ℕ → Memory) (taken : ι → List CStr) (order : List ι)
    (heap : List HeapEntry) : Option (List BuiltLine) := do
  let batches ← order.mapM fun w => worker qsort c (mem w) (taken w)
  merge BuiltLine.str batches heap

theorem allLines_map {P : Type} (vec : ι → LineVec P) (order : List ι) :
    allLines (order.map vec) = (order.flatMap fun w => (vec w).items : List P) := by
  rw [allLines, List.map_map]
  induction order with
  | nil => rfl
  | cons w order ih =>
    rw [List.map_cons, List.sum_cons, ih, List.flatMap_cons, ← Multiset.coe_add]
    rfl

variable (qsort : Qsort BuiltLine (compareLines BuiltLine.str)) {c : Corpus}
  {mem : ι → ℕ → ℕ → Memory} {taken : ι → List CStr}

/-- What is written is what the vectors of the workers hold, in order. -/
theorem writtenLines_of_workers {vec : ι → LineVec BuiltLine}
    (hvec : ∀ w, worker qsort c (mem w) (taken w) = some (vec w))
    (hsorted : ∀ w, (vec w).items.Pairwise fun a b => a.str ≤ b.str) {order : List ι}
    {heap : List HeapEntry} (hroom : order.length ≤ heap.length) :
    ∃ out, writtenLines qsort c mem taken order heap = some out ∧
      (out.Pairwise fun a b => a.str ≤ b.str) ∧
      out.Perm (order.flatMap fun w => (vec w).items) := by
  have hbatches := mapM_eq_some_map hvec order
  have hall : ∀ v ∈ order.map vec, v.items.Pairwise fun a b => a.str ≤ b.str := by
    intro v hv
    obtain ⟨w, -, rfl⟩ := List.mem_map.mp hv
    exact hsorted w
  obtain ⟨out, hmerge, horder, hlines⟩ := merge_spec hall heap (by rwa [List.length_map])
  refine ⟨out, by simp [writtenLines, hbatches, hmerge], horder, ?_⟩
  rw [← Multiset.coe_eq_coe, hlines, allLines_map]

/-- **The program writes the tags file of its corpus**: with ample memory, the bytes
written are those of the model in which every path contributes its lines. -/
theorem writtenLines_bytes (qsort' : Qsort CStr (compareLines id))
    (hmem : ∀ w k j, (mem w k j).Ample)
    (hroom : ∀ w, (taken w).length * maxMatchesPerFile ≤ maxCap) (cap : ι → ℕ) {order : List ι}
    {heap : List HeapEntry} (hheap : order.length ≤ heap.length) :
    (writtenLines qsort c mem taken order heap).map (fun out => out.flatMap fun l => l.str.bytes)
      = tagsFile qsort' c.fileLines taken cap order heap := by
  choose vec hvec hstrict hmemVec using fun w => worker_lines (c := c) qsort (hmem w) (hroom w)
  choose vec' hvec' hstrict' hmemVec' using
    fun w => workerVec_eq qsort' c.fileLines (taken w) (cap w)
  obtain ⟨out, hout, horder, hperm⟩ := writtenLines_of_workers qsort hvec
    (fun w => (hstrict w).imp le_of_lt) hheap
  -- a worker's vector is the one of the other model, line by line
  have hsame : ∀ w, (vec w).items.map BuiltLine.str = (vec' w).items := by
    intro w
    refine List.Pairwise.eq_of_mem_iff (r := (· < ·)) ?_ (hstrict' w) ?_
    · exact List.pairwise_map.mpr (hstrict w)
    · intro line
      rw [hmemVec, hmemVec', List.mem_flatMap]
      rfl
  have hsorted' : ∀ v ∈ order.map vec', v.items.Pairwise fun a b => id a ≤ id b := by
    intro v hv
    obtain ⟨w, -, rfl⟩ := List.mem_map.mp hv
    exact (hstrict' w).imp le_of_lt
  obtain ⟨out', hmerge', horder', hlines'⟩ :=
    merge_spec hsorted' heap (by rwa [List.length_map])
  have heq : out.map BuiltLine.str = out' := by
    have hperm' : (out.map BuiltLine.str).Perm out' := by
      apply (hperm.map _).trans
      rw [← Multiset.coe_eq_coe, hlines', allLines_map, List.map_flatMap]
      simp only [hsame]
    exact hperm'.eq_of_pairwise' (List.pairwise_map.mpr horder) horder'
  rw [hout, tagsFile, mapM_eq_some_map hvec' order]
  simp only [Option.map_some, Option.bind_eq_bind, Option.bind_some, hmerge', ← heq]
  rw [List.flatMap_map]
  rfl

/-- Two workers with one file each. -/
theorem writtenLines_bytes_two_files :
    (writtenLines (Qsort.mergeSort BuiltLine.str) oneVariable (fun _ _ _ => Memory.plenty)
      (fun w : Bool => [CStr.lit (if w then "a.c" else "b.c")]) [true, false]
      [⟨0, 0⟩, ⟨0, 0⟩]).map (fun out => out.flatMap fun l => l.str.bytes)
      = tagsFile (Qsort.mergeSort id) oneVariable.fileLines
        (fun w : Bool => [CStr.lit (if w then "a.c" else "b.c")]) (fun _ => 128) [true, false]
        [⟨0, 0⟩, ⟨0, 0⟩] := by
  have hroom : ∀ path : CStr, [path].length * maxMatchesPerFile ≤ maxCap := by
    intro path
    rw [List.length_singleton]
    decide
  exact writtenLines_bytes _ _ (fun _ _ _ => Memory.plenty_ample) (fun _ => hroom _) _ (by decide)

end Workers

/-! ### The paths on the work queue -/

/-- The paths `main` walks: those given, or the working directory. -/
def rootsOf (paths : List CStr) : List CStr := if paths = [] then [CStr.lit "."] else paths

/-- What `main` puts on the work queue, in order, when these paths are given. -/
def enqueuePaths (fs : FileSystem) (fuel : ℕ) (paths : List CStr) : Option (List CStr) :=
  ((rootsOf paths).mapM (enqueuePath fs fuel)).map List.flatten

section Roots

variable {fs : FileSystem}

/-- A walk that ends finds each source file listed under its root once. -/
theorem exists_enqueuePath {root : CStr} (hfin : {p | Listed fs root p}.Finite) :
    ∃ queue turns, (∀ fuel, turns < fuel → enqueuePath fs fuel root = some queue) ∧
      queue.Nodup ∧ ∀ p, p ∈ queue ↔ Listed fs root p ∧ isSource fs p = true := by
  have hforest := discover_forest fs
  obtain ⟨out, hout⟩ := exists_visits hforest (hfin.subset fun p hp => listed_of_below hp)
  refine ⟨out.filter (isSource fs), out.length, ?_, ?_, ?_⟩
  · intro fuel hfuel
    rw [enqueuePath, enqueueLoop_eq hout _ [] fuel (by rw [strstackPush_items]; rfl) hfuel,
      List.nil_append]
  · exact (hout.nodup hforest (List.pairwise_singleton _ _)).filter _
  · intro p
    rw [List.mem_filter, hout.mem_iff p]
    apply and_congr_left
    intro hsource
    constructor
    · rintro ⟨x, hx, hbelow⟩
      obtain rfl := List.mem_singleton.mp hx
      exact listed_of_below hbelow
    · intro hlisted
      exact ⟨root, List.mem_singleton_self root,
        below_of_listed hlisted ((isSource_iff p).mp hsource).1⟩

/-- No source file is listed under two of the paths. -/
def Apart (fs : FileSystem) (roots : List CStr) : Prop :=
  roots.Pairwise fun a b => ∀ p, isSource fs p = true → ¬ (Listed fs a p ∧ Listed fs b p)

/-- The walks under some paths end, if there are finitely many files, and find the source
files under the paths. -/
theorem exists_mapM_enqueuePath {roots : List CStr}
    (hfin : ∀ root ∈ roots, {p | Listed fs root p}.Finite) :
    ∃ queues, (∃ turns, ∀ fuel, turns < fuel → roots.mapM (enqueuePath fs fuel) = some queues) ∧
      (∀ p, p ∈ queues.flatten ↔ ∃ root ∈ roots, Listed fs root p ∧ isSource fs p = true) ∧
      (Apart fs roots → queues.flatten.Nodup) := by
  unfold Apart
  induction roots with
  | nil => exact ⟨[], ⟨0, fun fuel _ => rfl⟩, by simp, fun _ => List.nodup_nil⟩
  | cons root roots ih =>
    obtain ⟨hroot, hroots⟩ := List.forall_mem_cons.mp hfin
    obtain ⟨queues, ⟨turns, hrun⟩, hmem, hnodup⟩ := ih hroots
    obtain ⟨queue₀, turns₀, hrun₀, hnodup₀, hmem₀⟩ := exists_enqueuePath hroot
    refine ⟨queue₀ :: queues, ⟨max turns turns₀, ?_⟩, ?_, ?_⟩
    · intro fuel hfuel
      rw [max_lt_iff] at hfuel
      rw [List.mapM_cons, hrun₀ fuel hfuel.2, hrun fuel hfuel.1]
      rfl
    · intro p
      rw [List.flatten_cons, List.mem_append, hmem₀, hmem]
      simp
    · intro hapart
      obtain ⟨hhead, htail⟩ := List.pairwise_cons.mp hapart
      rw [List.flatten_cons]
      refine List.nodup_append.mpr ⟨hnodup₀, hnodup htail, ?_⟩
      -- a path found twice would lie under two of the paths
      rintro p hp _ hq rfl
      obtain ⟨hlisted, hsource⟩ := (hmem₀ p).mp hp
      obtain ⟨other, hother, hlisted', -⟩ := (hmem p).mp hq
      exact hhead other hother p hsource ⟨hlisted, hlisted'⟩

/-- **The walks of `main` end**, if there are finitely many files, and find the source
files under the paths. -/
theorem exists_enqueuePaths {paths : List CStr}
    (hfin : ∀ root ∈ rootsOf paths, {p | Listed fs root p}.Finite) :
    ∃ queue, (∃ turns, ∀ fuel, turns < fuel → enqueuePaths fs fuel paths = some queue) ∧
      (∀ p, p ∈ queue ↔ ∃ root ∈ rootsOf paths, Listed fs root p ∧ isSource fs p = true) ∧
      (Apart fs (rootsOf paths) → queue.Nodup) := by
  obtain ⟨queues, ⟨turns, hrun⟩, hrest⟩ := exists_mapM_enqueuePath hfin
  exact ⟨queues.flatten, ⟨turns, fun fuel hfuel => by rw [enqueuePaths, hrun fuel hfuel]; rfl⟩,
    hrest⟩

end Roots

/-! ### The lines of an execution -/

/-- The line of a tag of a source file under one of the roots. -/
def IsTag (fs : FileSystem) (c : Corpus) (roots : List CStr) (line : CStr) : Prop :=
  ∃ root ∈ roots, ∃ (file : SourceFile) (ms : List (QueryMatch file.text)),
    Listed fs root file.path ∧ isSource fs file.path = true ∧ c.Parses file ms ∧
      line ∈ tagsOf file ms

/-- The lines of the paths on the work queue are those of the tags. -/
theorem exists_mem_lines_iff {fs : FileSystem} {c : Corpus} {roots queue : List CStr}
    (hmem : ∀ p, p ∈ queue ↔ ∃ root ∈ roots, Listed fs root p ∧ isSource fs p = true)
    {line : CStr} : (∃ path ∈ queue, line ∈ c.lines path) ↔ IsTag fs c roots line := by
  constructor
  · rintro ⟨path, hpath, hline⟩
    obtain ⟨root, hroot, hlisted, hsource⟩ := (hmem path).mp hpath
    obtain ⟨file, ms, rfl, hparses, htag⟩ := Corpus.mem_lines.mp hline
    exact ⟨root, hroot, file, ms, hlisted, hsource, hparses, htag⟩
  · rintro ⟨root, hroot, file, ms, hlisted, hsource, hparses, htag⟩
    exact ⟨file.path, (hmem _).mpr ⟨root, hroot, hlisted, hsource⟩,
      Corpus.mem_lines.mpr ⟨file, ms, rfl, hparses, htag⟩⟩

variable {cfg : Config}

/-- The lines the merge thread writes when it has collected its batches. -/
def PipelineState.written (qsort : Qsort BuiltLine (compareLines BuiltLine.str)) (c : Corpus)
    (mem : Fin cfg.jobs → ℕ → ℕ → Memory) (s : PipelineState cfg) (heap : List HeapEntry) :
    Option (List BuiltLine) :=
  writtenLines qsort c mem s.taken s.batches heap

section Execution

variable {s : PipelineState cfg}

/-- What is written when one worker has taken all paths. -/
theorem written_of_only (qsort : Qsort BuiltLine (compareLines BuiltLine.str))
    (c : Corpus) (mem : Fin cfg.jobs → ℕ → ℕ → Memory) (heap : List HeapEntry) {j : Fin cfg.jobs}
    (htaken : s.taken j = cfg.paths) (hbatches : s.batches = [j]) :
    s.written qsort c mem heap
      = (worker qsort c (mem j) cfg.paths).bind fun vec => merge BuiltLine.str [vec] heap := by
  rw [PipelineState.written, hbatches, ← htaken]
  cases hworker : worker qsort c (mem j) (s.taken j) <;> simp [writtenLines, hworker]

theorem PipelineState.mem_taken {i : Fin cfg.jobs} {path : CStr} :
    path ∈ s.taken i ↔ ∃ k ∈ s.parsed i, cfg.paths[k]? = some path := by
  simp [PipelineState.taken]

/-- Once every path has been parsed, a path is taken exactly if it was put. -/
theorem PipelineState.ParsedOnce.exists_taken_iff (h : s.ParsedOnce) {path : CStr} :
    (∃ i, path ∈ s.taken i) ↔ path ∈ cfg.paths := by
  simp only [PipelineState.mem_taken]
  constructor
  · rintro ⟨i, k, -, hk⟩
    exact List.mem_of_getElem? hk
  · intro hpath
    obtain ⟨k, hk, rfl⟩ := List.getElem_of_mem hpath
    obtain ⟨i, hcount, -⟩ := h.once k hk
    exact ⟨i, k, List.count_pos_iff.mp (by omega), List.getElem?_eq_getElem hk⟩

/-- Of paths that are all different, no two workers take the same. -/
theorem PipelineState.ParsedOnce.taken_disjoint (h : s.ParsedOnce) (hnodup : cfg.paths.Nodup)
    {i j : Fin cfg.jobs} (hij : i ≠ j) {path : CStr} (hi : path ∈ s.taken i) :
    path ∉ s.taken j := by
  intro hj
  obtain ⟨k, hk, hget⟩ := PipelineState.mem_taken.mp hi
  obtain ⟨k', hk', hget'⟩ := PipelineState.mem_taken.mp hj
  obtain ⟨hlt, rfl⟩ := List.getElem?_eq_some_iff.mp hget
  obtain ⟨hlt', heq⟩ := List.getElem?_eq_some_iff.mp hget'
  obtain rfl : k' = k := (List.Nodup.getElem_inj_iff hnodup).mp heq
  obtain ⟨w, -, hother⟩ := h.once k' hlt
  have hiw : i = w := by_contra fun hne => hother i hne hk
  have hjw : j = w := by_contra fun hne => hother j hne hk'
  exact hij (hiw.trans hjw.symm)

theorem PipelineState.ParsedOnce.length_taken_le (h : s.ParsedOnce) (i : Fin cfg.jobs) :
    (s.taken i).length ≤ cfg.paths.length := by
  have hnodup : (s.parsed i).Nodup := by
    rw [List.nodup_iff_count_le_one]
    intro k
    by_cases hk : k ∈ s.parsed i
    · obtain ⟨w, hw, hother⟩ := h.once k (h.only i k hk)
      have hiw : i = w := by_contra fun hne => hother i hne hk
      rw [hiw, hw]
    · rw [List.count_eq_zero_of_not_mem hk]
      exact Nat.zero_le 1
  have hsub : s.parsed i ⊆ List.range cfg.paths.length := fun k hk =>
    List.mem_range.mpr (h.only i k hk)
  have hlen := (hnodup.subperm hsub).length_le
  rw [List.length_range] at hlen
  exact (List.length_filterMap_le _ _).trans hlen

/-- What the vectors of a healthy execution hold, once it has come to its end: the lines of
the paths put on the work queue, and each once if the paths are all different. -/
theorem lines_of_batches (hcfg : cfg.IsHealthy) (hjobs : 1 ≤ cfg.jobs)
    (h : (pipelineLts cfg).Reachable s) (hexit : s.Exited) {c : Corpus}
    {strs : Fin cfg.jobs → List CStr} (hstrict : ∀ w, (strs w).Pairwise (· < ·))
    (hstrs : ∀ w line, line ∈ strs w ↔ ∃ path ∈ s.taken w, line ∈ c.lines path)
    {out : List CStr} (horder : out.Pairwise (· ≤ ·)) (hperm : out.Perm (s.batches.flatMap strs)) :
    (∀ line, line ∈ out ↔ ∃ path ∈ cfg.paths, line ∈ c.lines path) ∧
      (cfg.paths.Nodup → out.Pairwise (· < ·)) := by
  have hinv := pipelineInv_reachable hjobs hcfg.createFails h
  have honce := hinv.parsedOnce_of_exited hcfg hjobs hexit
  constructor
  · intro line
    rw [hperm.mem_iff, List.mem_flatMap]
    simp only [hstrs]
    constructor
    · rintro ⟨w, -, path, hpath, hline⟩
      exact ⟨path, honce.exists_taken_iff.mp ⟨w, hpath⟩, hline⟩
    · rintro ⟨path, hpath, hline⟩
      obtain ⟨w, hw⟩ := honce.exists_taken_iff.mpr hpath
      have hbatch := (hinv.mem_batches_of_exited hcfg.mergeCreateFails hexit w).mpr (hcfg.startUp w)
      exact ⟨w, hbatch, path, hw, hline⟩
  · -- a line has one path, and a path one worker
    intro hnodup
    have hdistinct : out.Nodup := by
      rw [hperm.nodup_iff, List.nodup_flatMap]
      refine ⟨fun w _ => (hstrict w).imp fun hlt => hlt.ne,
        hinv.batches_nodup.imp fun {i j} hij line hi hj => ?_⟩
      obtain ⟨path, hpath, hline⟩ := (hstrs i line).mp hi
      obtain ⟨path', hpath', hline'⟩ := (hstrs j line).mp hj
      obtain rfl := (c.fileLines.built path line hline).path_unique
        (c.fileLines.built path' line hline')
      exact honce.taken_disjoint hnodup hij hpath hpath'
    exact (horder.and hdistinct).imp fun hab => lt_of_le_of_ne hab.1 hab.2

/-- The heap of `merge` has room for a batch of each worker. -/
theorem length_batches_le_heap (hinv : PipelineInv s) (hmax : cfg.jobs ≤ intMax)
    {heap : List HeapEntry} (hheap : (heap.length : ℤ) = cfg.mergeN) :
    s.batches.length ≤ heap.length := by
  rw [Config.mergeN, intOfLong_eq hmax, Nat.cast_inj] at hheap
  rw [hheap]
  exact hinv.batches_nodup.length_le_card.trans (Fintype.card_fin _).le

/-- **What a healthy execution writes**, when memory is ample: the lines of the paths put
on the work queue, in order, and each once if the paths are all different. -/
theorem written_lines (hcfg : cfg.IsHealthy) (hjobs : 1 ≤ cfg.jobs) (hmax : cfg.jobs ≤ intMax)
    (h : (pipelineLts cfg).Reachable s) (hexit : s.Exited)
    (qsort : Qsort BuiltLine (compareLines BuiltLine.str)) {c : Corpus}
    {mem : Fin cfg.jobs → ℕ → ℕ → Memory} (hmem : ∀ w k j, (mem w k j).Ample)
    (hroom : cfg.paths.length * maxMatchesPerFile ≤ maxCap) {heap : List HeapEntry}
    (hheap : (heap.length : ℤ) = cfg.mergeN) :
    ∃ out, s.written qsort c mem heap = some out ∧ (out.Pairwise fun a b => a.str ≤ b.str) ∧
      (∀ line, line ∈ out.map BuiltLine.str ↔ ∃ path ∈ cfg.paths, line ∈ c.lines path) ∧
      (cfg.paths.Nodup → out.Pairwise fun a b => a.str < b.str) := by
  have hinv := pipelineInv_reachable hjobs hcfg.createFails h
  have honce := hinv.parsedOnce_of_exited hcfg hjobs hexit
  have hspace : ∀ w, (s.taken w).length * maxMatchesPerFile ≤ maxCap := fun w =>
    (Nat.mul_le_mul_right _ (honce.length_taken_le w)).trans hroom
  choose vec hvec hstrict hlines using
    fun w => worker_lines (c := c) qsort (hmem w) (hspace w)
  obtain ⟨out, hout, horder, hperm⟩ := writtenLines_of_workers qsort hvec
    (fun w => (hstrict w).imp le_of_lt) (length_batches_le_heap hinv hmax hheap)
  have hstrs := hperm.map BuiltLine.str
  rw [List.map_flatMap] at hstrs
  obtain ⟨hall, hdistinct⟩ := lines_of_batches hcfg hjobs h hexit
    (fun w => List.pairwise_map.mpr (hstrict w)) hlines (List.pairwise_map.mpr horder) hstrs
  exact ⟨out, hout, horder, hall, fun hnodup => List.pairwise_map.mp (hdistinct hnodup)⟩

end Execution

/-- **Every execution writes the tags of the source files.**  If finitely many files
are listed under the paths given, the walks of `main` end; and whatever the interleaving
of the threads, if memory is ample the lines written are those of the tags of the source
files under the paths, in order, and each once if no file lies under two of the paths. -/
theorem execution_writes_tags (fs : FileSystem) (paths : List CStr)
    (hfin : ∀ root ∈ rootsOf paths, {p | Listed fs root p}.Finite) :
    ∃ queue, (∃ turns, ∀ fuel, turns < fuel → enqueuePaths fs fuel paths = some queue) ∧
      (queue.length * maxMatchesPerFile ≤ maxCap →
        ∀ (N : ℕ), 1 ≤ N → N ≤ intMax → ∀ s : PipelineState (Config.healthy N queue),
          (pipelineLts (Config.healthy N queue)).Reachable s → s.Exited →
          ∀ (qsort : Qsort BuiltLine (compareLines BuiltLine.str)) (c : Corpus)
            (mem : Fin N → ℕ → ℕ → Memory) (heap : List HeapEntry),
            (∀ w k j, (mem w k j).Ample) → (heap.length : ℤ) = (Config.healthy N queue).mergeN →
            ∃ out, s.written qsort c mem heap = some out ∧
              (out.Pairwise fun a b => a.str ≤ b.str) ∧
              (∀ line, line ∈ out.map BuiltLine.str ↔ IsTag fs c (rootsOf paths) line) ∧
              (Apart fs (rootsOf paths) → out.Pairwise fun a b => a.str < b.str)) := by
  obtain ⟨queue, hrun, hmem, hnodup⟩ := exists_enqueuePaths hfin
  refine ⟨queue, hrun, ?_⟩
  intro hroom N hN hmax s hreach hexit qsort c mem heap hample hheap
  obtain ⟨out, hout, horder, hlines, hstrict⟩ := written_lines (Config.isHealthy_healthy N queue)
    hN hmax hreach hexit qsort (c := c) hample hroom hheap
  exact ⟨out, hout, horder, fun line => (hlines line).trans (exists_mem_lines_iff hmem),
    fun hapart => hstrict (hnodup hapart)⟩

/-! ### A directory with one file -/

theorem length_twoHeap : (([⟨0, 0⟩, ⟨0, 0⟩] : List HeapEntry).length : ℤ) = intOfLong 2 := by
  decide

/-- A directory with one file. -/
def oneFile : FileSystem where
  lstat path :=
    if path = CStr.lit "." then some .dir else if path = CStr.lit "a.c" then some .reg else none
  opendir path :=
    if path = CStr.lit "." then some [CStr.lit ".", CStr.lit "..", CStr.lit "a.c"] else none
  names_nodup path names h := by
    obtain ⟨-, rfl⟩ : path = CStr.lit "." ∧ _ = names := by simpa using h
    decide
  no_slash path names h := by
    obtain ⟨-, rfl⟩ : path = CStr.lit "." ∧ _ = names := by simpa using h
    decide

theorem oneFile_listed {p : CStr} (h : Listed oneFile (CStr.lit ".") p) :
    p ∈ [CStr.lit ".", CStr.lit "a.c"] := by
  induction h with
  | root => decide
  | @entry path names name _ _ hnames hname hdots _ =>
    obtain ⟨rfl, rfl⟩ : path = CStr.lit "." ∧ _ = names := by simpa [oneFile] using hnames
    rw [childPath_dot rfl]
    simp only [List.mem_cons, List.not_mem_nil, or_false] at hname
    rcases hname with rfl | rfl | rfl
    · exact absurd hdots (by decide)
    · exact absurd hdots (by decide)
    · decide

theorem oneFile_finite : ∀ root ∈ rootsOf [], {p | Listed oneFile root p}.Finite := by
  intro root hroot
  obtain rfl := List.mem_singleton.mp hroot
  exact (List.finite_toSet [CStr.lit ".", CStr.lit "a.c"]).subset fun p hp => oneFile_listed hp

theorem oneFile_apart : Apart oneFile (rootsOf []) := List.pairwise_singleton _ _

/-- The one tag is that of the file. -/
theorem isTag_oneFile_iff (line : CStr) :
    IsTag oneFile oneVariable [CStr.lit "."] line ↔ line = variableLine := by
  have hmem : ∀ p, p ∈ [CStr.lit "a.c"] ↔
      ∃ root ∈ [CStr.lit "."], Listed oneFile root p ∧ isSource oneFile p = true := by
    intro p
    rw [List.mem_singleton]
    constructor
    · rintro rfl
      have hlisted : Listed oneFile (CStr.lit ".") (childPath (CStr.lit ".") (CStr.lit "a.c")) :=
        Listed.root.entry rfl rfl (by simp) (by decide)
      exact ⟨_, List.mem_singleton_self _, hlisted, by decide +kernel⟩
    · rintro ⟨root, hroot, hlisted, hsource⟩
      obtain rfl := List.mem_singleton.mp hroot
      have hpaths : ∀ p ∈ [CStr.lit ".", CStr.lit "a.c"], isSource oneFile p = true →
          p = CStr.lit "a.c" := by decide +kernel
      exact hpaths p (oneFile_listed hlisted) hsource
  rw [← exists_mem_lines_iff hmem]
  simp [oneVariable_lines]

/-- The queue is the one file. -/
theorem length_oneFile_queue {queue : List CStr} {turns : ℕ}
    (hrun : ∀ fuel, turns < fuel → enqueuePaths oneFile fuel [] = some queue) :
    queue.length ≤ 2 := by
  obtain ⟨queue', ⟨turns', hrun'⟩, hmem, hnodup⟩ := exists_enqueuePaths oneFile_finite
  have hsame := hrun (max turns turns' + 1) (by omega)
  rw [hrun' _ (by omega)] at hsame
  obtain rfl := Option.some.inj hsame
  have hsub : queue' ⊆ [CStr.lit ".", CStr.lit "a.c"] := by
    intro p hp
    obtain ⟨root, hroot, hlisted, -⟩ := (hmem p).mp hp
    obtain rfl := List.mem_singleton.mp hroot
    exact oneFile_listed hlisted
  exact ((hnodup oneFile_apart).subperm hsub).length_le

theorem execution_writes_tags_oneFile : ∃ (queue : List CStr)
    (s : PipelineState (Config.healthy 2 queue)) (out : List BuiltLine),
    (pipelineLts (Config.healthy 2 queue)).Reachable s ∧ s.Exited ∧
      s.written (Qsort.mergeSort BuiltLine.str) oneVariable (fun _ _ _ => Memory.plenty)
        [⟨0, 0⟩, ⟨0, 0⟩] = some out ∧
      (out.Pairwise fun a b => a.str < b.str) ∧
      ∀ line, line ∈ out.map BuiltLine.str ↔ line = variableLine := by
  obtain ⟨queue, ⟨turns, hrun⟩, hwrites⟩ := execution_writes_tags oneFile [] oneFile_finite
  have hlen := length_oneFile_queue hrun
  have hmax : 2 * maxMatchesPerFile ≤ maxCap := by decide
  have hjobs : 1 ≤ (Config.healthy 2 queue).jobs := Nat.le_succ 1
  obtain ⟨s, hreach, hexit, -⟩ := exists_execution (Config.isHealthy_healthy 2 queue) hjobs
    (fun _ => ⟨0, hjobs⟩) (List.Perm.refl _)
  obtain ⟨out, hout, -, htags, hstrict⟩ := hwrites
    ((Nat.mul_le_mul_right _ hlen).trans hmax) 2 (by decide) (by decide) s hreach hexit
    (Qsort.mergeSort BuiltLine.str) oneVariable (fun _ _ _ => Memory.plenty) [⟨0, 0⟩, ⟨0, 0⟩]
    (fun _ _ _ => Memory.plenty_ample) length_twoHeap
  exact ⟨queue, s, out, hreach, hexit, hout, hstrict oneFile_apart,
    fun line => (htags line).trans (isTag_oneFile_iff line)⟩

/-- **Nothing else is ever written**: whatever start-ups and allocations fail, the lines
written are in order, and each is that of a match in a source file under the paths. -/
theorem execution_sound (fs : FileSystem) (paths : List CStr)
    (hfin : ∀ root ∈ rootsOf paths, {p | Listed fs root p}.Finite) :
    ∃ queue, (∃ turns, ∀ fuel, turns < fuel → enqueuePaths fs fuel paths = some queue) ∧
      ∀ (N : ℕ) (startUp : Fin N → StartUp), 1 ≤ N → N ≤ intMax →
        ∀ s : PipelineState (Config.ofStartUp queue startUp),
          (pipelineLts (Config.ofStartUp queue startUp)).Reachable s → s.Exited →
          ∀ (qsort : Qsort BuiltLine (compareLines BuiltLine.str)) (c : Corpus)
            (mem : Fin N → ℕ → ℕ → Memory) (heap : List HeapEntry),
            (heap.length : ℤ) = (Config.ofStartUp queue startUp).mergeN → ∃ out,
              s.written qsort c mem heap = some out ∧ (out.Pairwise fun a b => a.str ≤ b.str) ∧
              ∀ line ∈ out, ∃ root ∈ rootsOf paths, ∃ (file : SourceFile)
                (ms : List (QueryMatch file.text)), Listed fs root file.path ∧
                  isSource fs file.path = true ∧ c.Parses file ms ∧
                  ∃ cand ∈ fileCandidates file ms, line = builtLine file cand := by
  obtain ⟨queue, hrun, hmem, -⟩ := exists_enqueuePaths hfin
  refine ⟨queue, hrun, ?_⟩
  intro N startUp hN hmax s hreach hexit qsort c mem heap hheap
  have hinv := pipelineInv_reachable hN (fun _ => rfl) hreach
  choose vec hvec hstrict hbuilt using fun w => worker_sound c qsort (mem w) (s.taken w)
  obtain ⟨out, hout, horder, hperm⟩ :=
    writtenLines_of_workers qsort hvec (fun w => (hstrict w).imp le_of_lt)
      (length_batches_le_heap hinv hmax hheap)
  refine ⟨out, hout, horder, ?_⟩
  intro line hline
  obtain ⟨w, -, hw⟩ := List.mem_flatMap.mp (hperm.mem_iff.mp hline)
  obtain ⟨file, ms, hpath, hparses, hcand⟩ := hbuilt w line hw
  obtain ⟨k, -, hk⟩ := PipelineState.mem_taken.mp hpath
  obtain ⟨root, hroot, hlisted, hsource⟩ := (hmem _).mp (List.mem_of_getElem? hk)
  exact ⟨root, hroot, file, ms, hlisted, hsource, hparses, hcand⟩

/-- The first of two workers gets no cursor. -/
def cursorFailsOnce (i : Fin 2) : StartUp := if i.val = 0 then .cursorFails else .ok

theorem cursorFailsOnce_only (i : Fin 2) : cursorFailsOnce i = .ok ↔ i = 1 := by
  revert i
  decide

/-- Memory that has nothing left for the lines of the first file a worker parses. -/
def starvedOnce (k _ : ℕ) : Memory := if k = 0 then Memory.starved else Memory.plenty

theorem sourceTree_finite : ∀ root ∈ rootsOf [], {p | Listed sourceTree root p}.Finite := by
  intro root hroot
  obtain rfl := List.mem_singleton.mp hroot
  exact (List.finite_toSet sourceTreePaths).subset fun p hp => sourceTree_listed hp

/-- What the walk of `sourceTree` puts on the work queue, in order. -/
def sourceQueue : List CStr := [CStr.lit "lib/b.c", CStr.lit "a.c"]

theorem enqueuePaths_sourceTree {queue : List CStr} {turns : ℕ}
    (hrun : ∀ fuel, turns < fuel → enqueuePaths sourceTree fuel [] = some queue) :
    queue = sourceQueue := by
  have hforest := discover_forest sourceTree
  have hfin := sourceTree_finite _ (List.mem_singleton_self _)
  obtain ⟨out, hout⟩ := exists_visits hforest (hfin.subset fun p hp => listed_of_below hp)
  have hloop (fuel : ℕ) (hfuel : out.length < fuel) :
      enqueuePath sourceTree fuel (CStr.lit ".") = some (out.filter (isSource sourceTree)) := by
    rw [enqueuePath, enqueueLoop_eq hout _ [] fuel (by rw [strstackPush_items]; rfl) hfuel,
      List.nil_append]
  -- no path is visited twice, so a few turns are enough
  have hsub : out ⊆ sourceTreePaths := by
    intro p hp
    obtain ⟨root, hroot, hbelow⟩ := (hout.mem_iff p).mp hp
    obtain rfl := List.mem_singleton.mp hroot
    exact sourceTree_listed (listed_of_below hbelow)
  have hlen : out.length ≤ 7 :=
    ((hout.nodup hforest (List.pairwise_singleton _ _)).subperm hsub).length_le
  have hfew : enqueuePath sourceTree 8 (CStr.lit ".")
      = some sourceQueue := by decide +kernel
  rw [hloop 8 (by omega)] at hfew
  have hall := hrun (turns + 8) (by omega)
  have hone : rootsOf [] = [CStr.lit "."] := rfl
  rw [enqueuePaths, hone, List.mapM_cons, List.mapM_nil, hloop _ (by omega), hfew] at hall
  exact (Option.some.inj hall).symm

/-- The second worker loses the line of the first file, and the line of the second is written. -/
theorem execution_sound_starvedOnce :
    ∃ (s : PipelineState (Config.ofStartUp sourceQueue cursorFailsOnce)) (out : List BuiltLine),
      (pipelineLts (Config.ofStartUp sourceQueue cursorFailsOnce)).Reachable s ∧ s.Exited ∧
        s.written (Qsort.mergeSort BuiltLine.str) oneVariable (fun _ => starvedOnce)
          [⟨0, 0⟩, ⟨0, 0⟩] = some out ∧
        (out.Pairwise fun a b => a.str ≤ b.str) ∧
        out.map BuiltLine.str = [variableLine] := by
  obtain ⟨queue, ⟨turns, hrun⟩, hwrites⟩ := execution_sound sourceTree [] sourceTree_finite
  obtain rfl := enqueuePaths_sourceTree hrun
  have hinit : (pipelineLts (Config.ofStartUp sourceQueue cursorFailsOnce)).Reachable
      (pipelineInit _) := Lts.Reachable.init rfl
  have htakes : ∃ i, ((Config.ofStartUp sourceQueue cursorFailsOnce).startUp i).TakesPaths :=
    ⟨(1 : Fin 2), trivial⟩
  obtain ⟨⟨tr, s, hr, hexit⟩, -⟩ :=
    pipeline_runs_to_exit (Nat.le_succ 1) (fun _ => rfl) (Or.inl htakes) hinit
  have hreach := hinit.run hr
  obtain ⟨out, hout, horder, -⟩ := hwrites 2 cursorFailsOnce (by decide) (by decide) s hreach hexit
    (Qsort.mergeSort BuiltLine.str) oneVariable (fun _ => starvedOnce) [⟨0, 0⟩, ⟨0, 0⟩]
    length_twoHeap
  refine ⟨s, out, hreach, hexit, hout, horder, ?_⟩
  obtain ⟨htaken, hbatches⟩ := taken_of_only (j := (1 : Fin 2)) (fun _ => rfl) rfl
    cursorFailsOnce_only (by decide) hreach hexit
  have hlines : ((worker (Qsort.mergeSort BuiltLine.str) oneVariable starvedOnce sourceQueue).bind
      fun vec => merge BuiltLine.str [vec] [⟨0, 0⟩, ⟨0, 0⟩]).map (List.map BuiltLine.str)
      = some [variableLine] := by decide +kernel
  have hwritten := written_of_only (Qsort.mergeSort BuiltLine.str) oneVariable
    (fun _ => starvedOnce) [⟨0, 0⟩, ⟨0, 0⟩] htaken hbatches
  have hout' := congrArg (Option.map (List.map BuiltLine.str)) (hwritten.symm.trans hout)
  exact Option.some.inj (hout'.symm.trans hlines)

end Tsag
