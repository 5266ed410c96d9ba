import Tsag.FileLines
import Tsag.LangCache
import Tsag.ReadFile
import Tsag.Schedule

/-!
# What a worker does with its paths

`parse_file_lines` looks up the language of a path, reads the file, parses it and goes
through its matches; a file that fails a check on the way adds nothing.  A worker does
this for the paths it takes, one after the other into one vector, and then sorts it and
drops duplicates.

## Main definitions

* `Grammar`, `Corpus` — what tree-sitter and the file system come to in a run.
* `parseFileLines`, `worker` — the functions.
* `Corpus.Parses` — what has to hold of a file for its matches to be looked at.
* `Corpus.fileLines` — the lines of every path.

## Main results

* `langCacheGet_of_ret` — what `lang_cache_get` answers, whatever the threads do.
* `parseFileLines_spec` — a file is parsed, or leaves the vector alone.
* `worker_lines` — the vector a worker leaves, with ample memory.
* `worker_sound` — what its lines are, if allocations fail.
-/

namespace Tsag

/-- What tree-sitter makes of the texts of one language. -/
structure Grammar where
  /-- `ts_parser_set_language` accepts the language. -/
  accepted : Bool
  /-- The matches of the language's query in the tree of a text, in the order of the
  cursor; `none` if `ts_parser_parse_string` returns no tree. -/
  query : (text : Bytes) → Option (List (QueryMatch text))

/-- What the calls of `parse_file_lines` find. -/
structure Corpus where
  /-- The languages that load. -/
  grammar : CStr → Option Grammar
  calls : (path : CStr) → FileCalls path

/-- The entry `lang_cache_get` returns for an extension. -/
def Corpus.langCacheGet (c : Corpus) (ext : CStr) : Option Grammar :=
  (extToLang ext).bind c.grammar

/-- The matches the loop is given, with what the allocations of each turn come to. -/
def withMemory {text : Bytes} (mem : ℕ → Memory) (ms : List (QueryMatch text)) :
    List (QueryMatch text × Memory) :=
  ms.zipIdx.map fun m => (m.1, mem m.2)

/-- `parse_file_lines`: what it returns and the vector it leaves, `none` where it would
leave an array. -/
def parseFileLines (c : Corpus) (mem : ℕ → Memory) (filepath : CStr) (vec : LineVec BuiltLine) :
    Option (ℕ × LineVec BuiltLine) :=
  match findExtension filepath with
  | none => some (1, vec)
  | some ext =>
      match c.langCacheGet ext with
      | none => some (1, vec)
      | some entry =>
          if ¬ entry.accepted then some (1, vec)
          else do
            match ← readSource (c.calls filepath) with
            | none => return (1, vec)
            | some file =>
                if hasLongLine file.text then return (1, vec)
                else
                  match entry.query file.text with
                  | none => return (1, vec)
                  | some ms =>
                      let st ← matchLoop file 0 ⟨dedupInit, vec⟩ (withMemory mem ms)
                      return (0, st.vec)

/-- The two have the same of a path. -/
structure Corpus.Agrees (c c' : Corpus) (path : CStr) : Prop where
  langCacheGet : ∀ ext, findExtension path = some ext → c.langCacheGet ext = c'.langCacheGet ext
  calls : c.calls path = c'.calls path

theorem parseFileLines_congr {c c' : Corpus} {path : CStr} (h : c.Agrees c' path)
    (mem : ℕ → Memory) (vec : LineVec BuiltLine) :
    parseFileLines c mem path vec = parseFileLines c' mem path vec := by
  unfold parseFileLines
  cases hext : findExtension path with
  | none => rfl
  | some ext => simp only [h.langCacheGet ext hext, h.calls]

/-- The loop of `worker`, from its `k`-th path on. -/
def workerLoop (c : Corpus) (mem : ℕ → ℕ → Memory) :
    ℕ → List CStr → LineVec BuiltLine → Option (LineVec BuiltLine)
  | _, [], vec => some vec
  | k, path :: paths, vec => do
      let (_, vec) ← parseFileLines c (mem k) path vec
      workerLoop c mem (k + 1) paths vec

/-- `worker`, started up: the vector it puts on the merge queue when these are the
paths it takes. -/
def worker (qsort : Qsort BuiltLine (compareLines BuiltLine.str)) (c : Corpus)
    (mem : ℕ → ℕ → Memory) (taken : List CStr) : Option (LineVec BuiltLine) := do
  let vec ← workerLoop c mem 0 taken (lineVecNew BuiltLine 128)
  let (vec, _) ← lineVecUniq BuiltLine.str (lineVecSort qsort vec)
  return vec

/-! ### The language -/

/-- **What `lang_cache_get` answers does not depend on the interleaving**: in every run
of any number of threads, an entry returned for an extension is that of its language. -/
theorem langCacheGet_of_ret {T : Type*} [DecidableEq T] {c : Corpus} {tr : List (LangEvent T)}
    {s : LangState T Grammar} (h : (langLts T c.grammar).Exec tr s) {t : T} {ext : CStr}
    {r : Option ℕ} (hret : .ret t ext r ∈ tr) :
    (r.bind fun i => s.cache.entries[i]?).map LangEntry.handles = c.langCacheGet ext := by
  obtain ⟨hnone, hsome⟩ := answers_ok h hret
  cases r with
  | none =>
    rw [Corpus.langCacheGet]
    rcases hnone.mp rfl with hext | ⟨n, hext, hload⟩
    · rw [hext]
      rfl
    · rw [hext, Option.bind_some, hload]
      rfl
  | some i =>
    obtain ⟨e, hentry, hext⟩ := hsome i rfl
    have hload := (langInv_reachable ⟨tr, h⟩).cache_wf.entries_eq e (List.mem_of_getElem? hentry)
    obtain ⟨x, hx, he⟩ := Option.map_eq_some_iff.mp hload
    have hhandles : e.handles = x := congrArg LangEntry.handles he.symm
    rw [Corpus.langCacheGet, hext, Option.bind_some, Option.bind_some, hentry, hx, ← hhandles]
    rfl

/-! ### One file -/

/-- Everything that has to hold of a file for its matches to be looked at, and what
these are: its extension is of a language that loads, it is readable, it has no line that
is too long, and it parses. -/
structure Corpus.Parses (c : Corpus) (file : SourceFile) (ms : List (QueryMatch file.text)) :
    Prop where
  read : ∃ n, Readable (c.calls file.path) n ∧ file.text = (c.calls file.path).fread n
  short : ∀ line ∈ file.text.splitOn Byte.newline, line.length ≤ maxSrcLineLen
  query : ∃ ext entry, findExtension file.path = some ext ∧ c.langCacheGet ext = some entry ∧
    entry.accepted = true ∧ entry.query file.text = some ms

section File

variable {c : Corpus} {file : SourceFile} {ms : List (QueryMatch file.text)}

/-- A path has one text, and a text one list of matches. -/
theorem Corpus.Parses.unique {file' : SourceFile} {ms' : List (QueryMatch file'.text)}
    (h : c.Parses file ms) (h' : c.Parses file' ms') (hpath : file'.path = file.path) :
    (⟨file', ms'⟩ : (file : SourceFile) × List (QueryMatch file.text)) = ⟨file, ms⟩ := by
  obtain ⟨path, text, hlt, hle⟩ := file
  obtain ⟨path', text', hlt', hle'⟩ := file'
  obtain rfl : path' = path := hpath
  obtain ⟨n, hread, rfl⟩ : ∃ n, Readable (c.calls path') n ∧ text = (c.calls path').fread n :=
    h.read
  obtain ⟨n', hread', rfl⟩ : ∃ n, Readable (c.calls path') n ∧ text' = (c.calls path').fread n :=
    h'.read
  obtain rfl := hread.unique hread'
  obtain ⟨ext, entry, hext, hentry, -, hms⟩ := h.query
  obtain ⟨ext', entry', hext', hentry', -, hms'⟩ := h'.query
  obtain rfl := Option.some.inj (hext.symm.trans hext')
  obtain rfl := Option.some.inj (hentry.symm.trans hentry')
  obtain rfl := Option.some.inj (hms.symm.trans hms')
  rfl

theorem not_hasLongLine_iff (src : Bytes) : ¬ hasLongLine src = true ↔
    ∀ line ∈ src.splitOn Byte.newline, line.length ≤ maxSrcLineLen := by
  rw [hasLongLine_iff]
  push Not
  rfl

/-- A file is parsed or leaves the vector alone. -/
theorem parseFileLines_cases (c : Corpus) (mem : ℕ → Memory) (path : CStr)
    (vec : LineVec BuiltLine) :
    (∃ (file : SourceFile) (ms : List (QueryMatch file.text)), file.path = path ∧
      c.Parses file ms ∧ parseFileLines c mem path vec
        = (matchLoop file 0 ⟨dedupInit, vec⟩ (withMemory mem ms)).map fun st => (0, st.vec)) ∨
    ((∀ (file : SourceFile) (ms : List (QueryMatch file.text)), file.path = path →
      ¬ c.Parses file ms) ∧ parseFileLines c mem path vec = some (1, vec)) := by
  cases hext : findExtension path with
  | none =>
    refine Or.inr ⟨?_, by simp only [parseFileLines, hext]⟩
    rintro file ms rfl ⟨-, -, ext, entry, hext', -⟩
    rw [hext] at hext'
    cases hext'
  | some ext =>
    cases hentry : c.langCacheGet ext with
    | none =>
      refine Or.inr ⟨?_, by simp only [parseFileLines, hext, hentry]⟩
      rintro file ms rfl ⟨-, -, ext', entry, hext', hentry', -⟩
      obtain rfl := Option.some.inj (hext.symm.trans hext')
      rw [hentry] at hentry'
      cases hentry'
    | some entry =>
      -- the language of the path is settled
      have hquery : ∀ (file : SourceFile) (ms : List (QueryMatch file.text)), file.path = path →
          c.Parses file ms → entry.accepted = true ∧ entry.query file.text = some ms := by
        rintro file ms rfl ⟨-, -, ext', entry', hext', hentry', haccepted, hquery⟩
        obtain rfl := Option.some.inj (hext.symm.trans hext')
        obtain rfl := Option.some.inj (hentry.symm.trans hentry')
        exact ⟨haccepted, hquery⟩
      simp only [parseFileLines, hext, hentry]
      by_cases haccepted : entry.accepted = true
      · rw [if_neg (not_not.mpr haccepted)]
        by_cases hread : ∃ n, Readable (c.calls path) n
        · obtain ⟨n, hn⟩ := hread
          obtain ⟨file, hfile, rfl, htext⟩ := readSource_of_readable hn
          simp only [hfile, Option.bind_eq_bind, Option.bind_some]
          -- and so is its text
          have hsame : ∀ (file' : SourceFile) (ms : List (QueryMatch file'.text)),
              file'.path = file.path → c.Parses file' ms → file' = file := by
            intro file' ms hpath h
            obtain ⟨n', hn', htext'⟩ := h.read
            rw [hpath] at hn' htext'
            obtain rfl := hn.unique hn'
            exact SourceFile.ext hpath (htext'.trans htext.symm)
          by_cases hlong : hasLongLine file.text = true
          · rw [if_pos hlong]
            refine Or.inr ⟨?_, rfl⟩
            intro file' ms hpath h
            obtain rfl := hsame file' ms hpath h
            exact (not_hasLongLine_iff _).mpr h.short hlong
          · rw [if_neg hlong]
            cases hms : entry.query file.text with
            | none =>
              refine Or.inr ⟨?_, rfl⟩
              intro file' ms hpath h
              obtain rfl := hsame file' ms hpath h
              rw [(hquery _ ms rfl h).2] at hms
              cases hms
            | some ms =>
              refine Or.inl ⟨file, ms, rfl, ⟨⟨n, hn, htext⟩, (not_hasLongLine_iff _).mp hlong,
                ext, entry, hext, hentry, haccepted, hms⟩, ?_⟩
              rw [Option.map_eq_bind]
              rfl
        · rw [not_exists] at hread
          simp only [readSource_of_not_readable hread, Option.bind_eq_bind, Option.bind_some]
          refine Or.inr ⟨?_, rfl⟩
          rintro file ms rfl ⟨⟨n, hn, -⟩, -, -⟩
          exact hread n hn
      · rw [if_pos haccepted]
        exact Or.inr ⟨fun file ms hpath h => haccepted (hquery file ms hpath h).1, rfl⟩

/-! ### The lines of a file -/

/-- The matches of a file that yield a line when memory is ample. -/
def fileCandidates (file : SourceFile) (ms : List (QueryMatch file.text)) : List Candidate :=
  (ms.take maxMatchesPerFile).filterMap (candidate file)

/-- The lines a file that parses has when memory is ample. -/
def tagsOf (file : SourceFile) (ms : List (QueryMatch file.text)) : List CStr :=
  (keptMatches (fileCandidates file ms)).map fun cand => (builtLine file cand).str

/-- A file has no more lines than the loop examines matches. -/
theorem length_keptMatches_le (file : SourceFile) (ms : List (QueryMatch file.text)) :
    (keptMatches (fileCandidates file ms)).length ≤ maxMatchesPerFile := by
  have hkept : (keptMatches (fileCandidates file ms)).length ≤ (fileCandidates file ms).length := by
    have hle := List.length_filterMap_le
      (keptAt Candidate.range Candidate.pattern dedupCap (fileCandidates file ms))
      (List.range (fileCandidates file ms).length)
    rwa [List.length_range] at hle
  exact hkept.trans ((List.length_filterMap_le _ _).trans (List.length_take_le _ _))

theorem take_withMemory {text : Bytes} (mem : ℕ → Memory) (ms : List (QueryMatch text)) (n : ℕ) :
    ((withMemory mem ms).take n).map Prod.fst = ms.take n := by
  rw [withMemory, List.map_take, List.map_map]
  show (ms.zipIdx.map Prod.fst).take n = ms.take n
  rw [List.zipIdx_map_fst]

theorem candidates_withMemory (mem : ℕ → Memory) (ms : List (QueryMatch file.text)) :
    candidates file ((withMemory mem ms).take maxMatchesPerFile) = fileCandidates file ms := by
  rw [fileCandidates, ← take_withMemory mem, List.filterMap_map]
  rfl

theorem ample_withMemory {mem : ℕ → Memory} (h : ∀ j, (mem j).Ample) {text : Bytes}
    {ms : List (QueryMatch text)} : ∀ m ∈ withMemory mem ms, m.2.Ample := by
  intro m hm
  obtain ⟨p, -, rfl⟩ := List.mem_map.mp hm
  exact h p.2

variable (ms) in
/-- With ample memory a file that parses appends its lines. -/
theorem matchLoop_appends {mem : ℕ → Memory} (hmem : ∀ j, (mem j).Ample)
    {vec : LineVec BuiltLine} (hroom : vec.items.length + maxMatchesPerFile ≤ maxCap) :
    ∃ st, matchLoop file 0 ⟨dedupInit, vec⟩ (withMemory mem ms) = some st ∧
      st.vec.items
        = vec.items ++ (keptMatches (fileCandidates file ms)).map (builtLine file) := by
  have hlen : ((withMemory mem ms).take maxMatchesPerFile).length ≤ maxMatchesPerFile :=
    List.length_take_le _ _
  obtain ⟨st, hrun, -, hinv⟩ := BestInv.turns ((withMemory mem ms).take maxMatchesPerFile)
    (bestInv_init file vec) (fun m hm => ample_withMemory hmem m (List.mem_of_mem_take hm))
    (by simp only; omega)
  rw [List.nil_append, candidates_withMemory] at hinv
  refine ⟨st, ?_, hinv.items_eq⟩
  rw [matchLoop_eq, Nat.sub_zero]
  exact hrun

/-- The lines past some place after a turn: those that were past it, and the line of the
match. -/
theorem MatchTurn.mem_drop {st st' : MatchState} {mt : QueryMatch file.text} {mem : Memory}
    (h : MatchTurn file st mt mem st') {n : ℕ} {line : BuiltLine}
    (hline : line ∈ st'.vec.items.drop n) : line ∈ st.vec.items.drop n ∨
      ∃ cand, candidate file mt = some cand ∧ line = builtLine file cand := by
  cases h with
  | skipped _ | dropped _ _ _ _ | unbuilt _ _ _ | unpushed _ _ _ _ | raised _ _ _ _ _ =>
    exact Or.inl hline
  | @pushed m str vec hm _ hmake hpush =>
    have hcand : candidate file mt = some ⟨m, mt.patternIndex⟩ := by
      rw [candidate_eq hm, if_pos (nameIsPrintable_of_makeLine hm hmake)]
    rw [lineVecPush_items hpush, List.drop_append, List.mem_append] at hline
    refine hline.imp_right fun hnew => ⟨_, hcand, ?_⟩
    exact (List.mem_singleton.mp (List.mem_of_mem_drop hnew)).trans (builtLine_eq hm hmake)
  | @replaced m str pre post e hm _ _ _ hmake =>
    have hcand : candidate file mt = some ⟨m, mt.patternIndex⟩ := by
      rw [candidate_eq hm, if_pos (nameIsPrintable_of_makeLine hm hmake)]
    rw [List.drop_set] at hline
    split at hline
    · exact Or.inl hline
    · refine (List.mem_or_eq_of_mem_set hline).imp_right fun heq => ⟨_, hcand, ?_⟩
      exact heq.trans (builtLine_eq hm hmake)

variable (file) in
/-- The invariant of the loop whatever fails: the lines there were are in their places,
and the others are those of matches that have been examined. -/
structure SoundInv (old : List BuiltLine) (done : List (QueryMatch file.text)) (st : MatchState) :
    Prop extends SlotInv old st where
  built : ∀ line ∈ st.vec.items.drop old.length,
    ∃ mt ∈ done, ∃ cand, candidate file mt = some cand ∧ line = builtLine file cand

theorem SoundInv.turns {old : List BuiltLine} (turns : List (QueryMatch file.text × Memory)) :
    ∀ {done : List (QueryMatch file.text)} {st : MatchState}, SoundInv file old done st →
      ∃ st', matchTurns file st turns = some st' ∧
        SoundInv file old (done ++ turns.map Prod.fst) st' := by
  induction turns with
  | nil =>
    intro done st h
    exact ⟨st, rfl, by rwa [List.map_nil, List.append_nil]⟩
  | cons m turns ih =>
    intro done st h
    obtain ⟨mt, mem⟩ := m
    obtain ⟨st₁, hturn, heffect⟩ := matchTurn_spec h.toSlotInv mt mem
    have hnext : SoundInv file old (done ++ [mt]) st₁ := by
      refine ⟨h.toSlotInv.turn heffect, ?_⟩
      intro line hline
      rcases heffect.mem_drop hline with hold | ⟨cand, hcand, heq⟩
      · obtain ⟨mt', hmt', hrest⟩ := h.built line hold
        exact ⟨mt', List.mem_append_left _ hmt', hrest⟩
      · exact ⟨mt, by simp, cand, hcand, heq⟩
    obtain ⟨st', hrun, hinv⟩ := ih hnext
    refine ⟨st', ?_, ?_⟩
    · rw [matchTurns, List.foldlM_cons, hturn]
      exact hrun
    · rw [List.append_assoc] at hinv
      exact hinv

/-- Whatever fails, the loop appends lines of the file's matches. -/
theorem matchLoop_sound (ms : List (QueryMatch file.text)) (mem : ℕ → Memory)
    (vec : LineVec BuiltLine) :
    ∃ st lines, matchLoop file 0 ⟨dedupInit, vec⟩ (withMemory mem ms) = some st ∧
      st.vec.items = vec.items ++ lines ∧
      ∀ line ∈ lines, ∃ cand ∈ fileCandidates file ms, line = builtLine file cand := by
  have hinit : SoundInv file vec.items [] ⟨dedupInit, vec⟩ :=
    ⟨slotInv_init vec, by simp⟩
  obtain ⟨st, hrun, hinv⟩ :=
    SoundInv.turns ((withMemory mem ms).take maxMatchesPerFile) hinit
  rw [List.nil_append, take_withMemory] at hinv
  refine ⟨st, st.vec.items.drop vec.items.length, ?_, ?_, ?_⟩
  · rw [matchLoop_eq, Nat.sub_zero]
    exact hrun
  · exact (List.prefix_iff_eq_append.mp hinv.old_prefix).symm
  · intro line hline
    obtain ⟨mt, hmt, cand, hcand, rfl⟩ := hinv.built line hline
    exact ⟨cand, List.mem_filterMap.mpr ⟨mt, hmt, hcand⟩, rfl⟩

end File

/-! ### The lines of the paths -/

section Paths

variable {c : Corpus}

theorem TagLine.of_candidate {file : SourceFile} {ms : List (QueryMatch file.text)}
    {cand : Candidate} (h : cand ∈ fileCandidates file ms) :
    TagLine file.path (builtLine file cand).str := by
  obtain ⟨mt, -, hcand⟩ := List.mem_filterMap.mp h
  obtain ⟨m, hm, hprint⟩ := Option.bind_eq_some_iff.mp hcand
  split at hprint
  · next hp =>
    obtain rfl := Option.some.inj hprint
    have hvalid := QueryMatch.valid hm
    obtain ⟨line, hline, hbytes⟩ := makeLine_of_makesLine hvalid file.size_le
      ((makesLine_iff file hvalid Memory.plenty_ample).mpr hp)
    have hstr : (builtLine file ⟨m, mt.patternIndex⟩).str = line := by
      apply CStr.ext
      rw [hbytes, builtLine_bytes file hp]
    exact hstr ▸ ⟨_, _, file.text, m, file.size_le, ⟨mt.captures, mt.ok, hm⟩, hline⟩
  · cases hprint

open Classical in
/-- The lines of a path: those of its file, if that parses. -/
noncomputable def Corpus.lines (c : Corpus) (path : CStr) : List CStr :=
  if h : ∃ p : (file : SourceFile) × List (QueryMatch file.text),
      p.1.path = path ∧ c.Parses p.1 p.2
  then tagsOf h.choose.1 h.choose.2 else []

theorem Corpus.lines_of_parses {file : SourceFile} {ms : List (QueryMatch file.text)}
    (h : c.Parses file ms) : c.lines file.path = tagsOf file ms := by
  have hex : ∃ p : (file : SourceFile) × List (QueryMatch file.text),
      p.1.path = file.path ∧ c.Parses p.1 p.2 := ⟨⟨file, ms⟩, rfl, h⟩
  obtain ⟨hpath, hparses⟩ := hex.choose_spec
  have heq : hex.choose = ⟨file, ms⟩ := h.unique hparses hpath
  rw [Corpus.lines, dif_pos hex, heq]

theorem Corpus.lines_of_not_parses {path : CStr}
    (h : ∀ (file : SourceFile) (ms : List (QueryMatch file.text)), file.path = path →
      ¬ c.Parses file ms) : c.lines path = [] := by
  rw [Corpus.lines, dif_neg]
  rintro ⟨⟨file, ms⟩, hpath, hparses⟩
  exact h file ms hpath hparses

theorem Corpus.mem_lines {path line : CStr} : line ∈ c.lines path ↔
    ∃ (file : SourceFile) (ms : List (QueryMatch file.text)), file.path = path ∧
      c.Parses file ms ∧ line ∈ tagsOf file ms := by
  by_cases h : ∃ p : (file : SourceFile) × List (QueryMatch file.text),
      p.1.path = path ∧ c.Parses p.1 p.2
  · obtain ⟨⟨file, ms⟩, rfl, hparses⟩ := h
    rw [Corpus.lines_of_parses hparses]
    refine ⟨fun hline => ⟨file, ms, rfl, hparses, hline⟩, ?_⟩
    rintro ⟨file', ms', hpath, hparses', hline⟩
    have heq := hparses.unique hparses' hpath
    cases heq
    exact hline
  · have hnone : ∀ (file : SourceFile) (ms : List (QueryMatch file.text)), file.path = path →
        ¬ c.Parses file ms := fun file ms hpath hparses => h ⟨⟨file, ms⟩, hpath, hparses⟩
    rw [Corpus.lines_of_not_parses hnone]
    apply iff_of_false List.not_mem_nil
    rintro ⟨file, ms, hpath, hparses, -⟩
    exact hnone file ms hpath hparses

/-- The lines every path contributes. -/
noncomputable def Corpus.fileLines (c : Corpus) : FileLines where
  lines := c.lines
  built path line hline := by
    obtain ⟨file, ms, rfl, -, hmem⟩ := Corpus.mem_lines.mp hline
    obtain ⟨cand, hcand, rfl⟩ := List.mem_map.mp hmem
    exact TagLine.of_candidate (mem_of_mem_kept hcand)

/-- **A file is parsed or leaves the vector alone.**  Which of the two it is depends on
the file and its language only; if it is parsed the loop over its matches ends. -/
theorem parseFileLines_spec (c : Corpus) (mem : ℕ → Memory) (path : CStr)
    (vec : LineVec BuiltLine) :
    (∃ (file : SourceFile) (ms : List (QueryMatch file.text)), file.path = path ∧
      c.Parses file ms ∧ ∃ st, matchLoop file 0 ⟨dedupInit, vec⟩ (withMemory mem ms) = some st ∧
        parseFileLines c mem path vec = some (0, st.vec)) ∨
    ((∀ (file : SourceFile) (ms : List (QueryMatch file.text)), file.path = path →
      ¬ c.Parses file ms) ∧ parseFileLines c mem path vec = some (1, vec)) := by
  rcases parseFileLines_cases c mem path vec with ⟨file, ms, hpath, hparses, hrun⟩ | hnone
  · obtain ⟨st, lines, hloop, -⟩ := matchLoop_sound ms mem vec
    refine Or.inl ⟨file, ms, hpath, hparses, st, hloop, ?_⟩
    rw [hrun, hloop]
    rfl
  · exact Or.inr hnone

/-- With ample memory `parse_file_lines` appends the lines of its path. -/
theorem parseFileLines_appends {mem : ℕ → Memory} (hmem : ∀ j, (mem j).Ample) (path : CStr)
    (vec : LineVec BuiltLine) (hroom : vec.items.length + maxMatchesPerFile ≤ maxCap) :
    ∃ rc vec' lines, parseFileLines c mem path vec = some (rc, vec') ∧
      vec'.items = vec.items ++ lines ∧ lines.map BuiltLine.str = c.lines path ∧
      lines.length ≤ maxMatchesPerFile := by
  rcases parseFileLines_cases c mem path vec with ⟨file, ms, rfl, hparses, hrun⟩ | ⟨hnone, hrun⟩
  · obtain ⟨st, hloop, hitems⟩ := matchLoop_appends ms hmem hroom
    refine ⟨0, st.vec, _, by rw [hrun, hloop]; rfl, hitems, ?_, ?_⟩
    · rw [Corpus.lines_of_parses hparses, tagsOf, List.map_map]
      rfl
    · rw [List.length_map]
      exact length_keptMatches_le file ms
  · exact ⟨1, vec, [], hrun, (List.append_nil _).symm, (Corpus.lines_of_not_parses hnone).symm,
      Nat.zero_le _⟩

/-- Whatever fails, it appends lines of its path's matches. -/
theorem parseFileLines_sound (c : Corpus) (mem : ℕ → Memory) (path : CStr)
    (vec : LineVec BuiltLine) :
    ∃ rc vec' lines, parseFileLines c mem path vec = some (rc, vec') ∧
      vec'.items = vec.items ++ lines ∧ ∀ line ∈ lines, ∃ (file : SourceFile)
        (ms : List (QueryMatch file.text)), file.path = path ∧ c.Parses file ms ∧
          ∃ cand ∈ fileCandidates file ms, line = builtLine file cand := by
  rcases parseFileLines_cases c mem path vec with ⟨file, ms, rfl, hparses, hrun⟩ | ⟨-, hrun⟩
  · obtain ⟨st, lines, hloop, hitems, hbuilt⟩ := matchLoop_sound ms mem vec
    exact ⟨0, st.vec, lines, by rw [hrun, hloop]; rfl, hitems,
      fun line hline => ⟨file, ms, rfl, hparses, hbuilt line hline⟩⟩
  · exact ⟨1, vec, [], hrun, (List.append_nil _).symm, by simp⟩

/-! ### The vector of a worker -/

/-- With ample memory the vector holds the lines of its paths, one after the other. -/
theorem workerLoop_appends {mem : ℕ → ℕ → Memory} (hmem : ∀ k j, (mem k j).Ample)
    (paths : List CStr) : ∀ (k : ℕ) (vec : LineVec BuiltLine),
    vec.items.length + paths.length * maxMatchesPerFile ≤ maxCap →
    ∃ vec' lines, workerLoop c mem k paths vec = some vec' ∧ vec'.items = vec.items ++ lines ∧
      lines.map BuiltLine.str = paths.flatMap c.lines := by
  induction paths with
  | nil => exact fun k vec _ => ⟨vec, [], rfl, (List.append_nil _).symm, rfl⟩
  | cons path paths ih =>
    intro k vec hroom
    rw [List.length_cons, Nat.add_mul, Nat.one_mul] at hroom
    obtain ⟨rc, vec₁, lines, hparse, hitems, hlines, hlen⟩ :=
      parseFileLines_appends (c := c) (hmem k) path vec (by omega)
    have hroom₁ : vec₁.items.length + paths.length * maxMatchesPerFile ≤ maxCap := by
      rw [hitems, List.length_append]
      omega
    obtain ⟨vec', lines', hloop, hitems', hlines'⟩ := ih (k + 1) vec₁ hroom₁
    refine ⟨vec', lines ++ lines', ?_, ?_, ?_⟩
    · simp only [workerLoop, hparse, Option.bind_eq_bind, Option.bind_some, hloop]
    · rw [hitems', hitems, List.append_assoc]
    · rw [List.map_append, hlines, hlines', List.flatMap_cons]

/-- Whatever fails, it holds lines of matches in files of its paths. -/
theorem workerLoop_sound (c : Corpus) (mem : ℕ → ℕ → Memory) (paths : List CStr) :
    ∀ (k : ℕ) (vec : LineVec BuiltLine), ∃ vec' lines, workerLoop c mem k paths vec = some vec' ∧
      vec'.items = vec.items ++ lines ∧ ∀ line ∈ lines, ∃ (file : SourceFile)
        (ms : List (QueryMatch file.text)), file.path ∈ paths ∧ c.Parses file ms ∧
          ∃ cand ∈ fileCandidates file ms, line = builtLine file cand := by
  induction paths with
  | nil => exact fun k vec => ⟨vec, [], rfl, (List.append_nil _).symm, by simp⟩
  | cons path paths ih =>
    intro k vec
    obtain ⟨rc, vec₁, lines, hparse, hitems, hbuilt⟩ := parseFileLines_sound c (mem k) path vec
    obtain ⟨vec', lines', hloop, hitems', hbuilt'⟩ := ih (k + 1) vec₁
    refine ⟨vec', lines ++ lines', ?_, ?_, ?_⟩
    · simp only [workerLoop, hparse, Option.bind_eq_bind, Option.bind_some, hloop]
    · rw [hitems', hitems, List.append_assoc]
    · intro line hline
      rcases List.mem_append.mp hline with hline | hline
      · obtain ⟨file, ms, hpath, hrest⟩ := hbuilt line hline
        exact ⟨file, ms, hpath ▸ List.mem_cons_self .., hrest⟩
      · obtain ⟨file, ms, hpath, hrest⟩ := hbuilt' line hline
        exact ⟨file, ms, List.mem_cons_of_mem _ hpath, hrest⟩

variable (qsort : Qsort BuiltLine (compareLines BuiltLine.str))

/-- What the sort and the removal of duplicates make of the loop's vector. -/
theorem worker_of_loop {mem : ℕ → ℕ → Memory} {taken : List CStr} {vec : LineVec BuiltLine}
    (hloop : workerLoop c mem 0 taken (lineVecNew BuiltLine 128) = some vec) :
    ∃ vec', worker qsort c mem taken = some vec' ∧
      (vec'.items.Pairwise fun a b => a.str < b.str) ∧ (∀ line ∈ vec'.items, line ∈ vec.items) ∧
      ∀ line ∈ vec.items, ∃ line' ∈ vec'.items, line'.str = line.str := by
  have huniq := lineVecUniq_eq BuiltLine.str (lineVecSort qsort vec)
  obtain ⟨hstrict, hsub, hall⟩ := lineVecUniq_sort qsort huniq
  refine ⟨_, ?_, hstrict, hsub, hall⟩
  simp only [worker, hloop, huniq, Option.bind_eq_bind, Option.bind_some]
  rfl

/-- **The vector a worker puts on the merge queue**: with ample memory, the lines of
the files it has taken, each once and in order. -/
theorem worker_lines {mem : ℕ → ℕ → Memory} (hmem : ∀ k j, (mem k j).Ample) {taken : List CStr}
    (hroom : taken.length * maxMatchesPerFile ≤ maxCap) :
    ∃ vec, worker qsort c mem taken = some vec ∧
      (vec.items.Pairwise fun a b => a.str < b.str) ∧
      ∀ line, line ∈ vec.items.map BuiltLine.str ↔ ∃ path ∈ taken, line ∈ c.lines path := by
  obtain ⟨vec, lines, hloop, hitems, hlines⟩ := workerLoop_appends (c := c) hmem taken 0
    (lineVecNew BuiltLine 128) (by simpa [lineVecNew] using hroom)
  obtain ⟨vec', hworker, hstrict, hsub, hall⟩ := worker_of_loop qsort hloop
  obtain rfl : vec.items = lines := hitems
  refine ⟨vec', hworker, hstrict, ?_⟩
  intro line
  rw [← List.mem_flatMap, ← hlines]
  constructor
  · rintro hline
    obtain ⟨b, hb, rfl⟩ := List.mem_map.mp hline
    exact List.mem_map_of_mem (hsub b hb)
  · rintro hline
    obtain ⟨b, hb, rfl⟩ := List.mem_map.mp hline
    obtain ⟨b', hb', heq⟩ := hall b hb
    exact List.mem_map.mpr ⟨b', hb', heq⟩

variable (c) in
/-- **What a worker's lines are when allocations fail**: each is that of a match in a
file it has taken, and they are in order without repetitions. -/
theorem worker_sound (mem : ℕ → ℕ → Memory) (taken : List CStr) :
    ∃ vec, worker qsort c mem taken = some vec ∧
      (vec.items.Pairwise fun a b => a.str < b.str) ∧
      ∀ line ∈ vec.items, ∃ (file : SourceFile) (ms : List (QueryMatch file.text)),
        file.path ∈ taken ∧ c.Parses file ms ∧
          ∃ cand ∈ fileCandidates file ms, line = builtLine file cand := by
  obtain ⟨vec, lines, hloop, hitems, hbuilt⟩ :=
    workerLoop_sound c mem taken 0 (lineVecNew BuiltLine 128)
  obtain ⟨vec', hworker, hstrict, hsub, -⟩ := worker_of_loop qsort hloop
  obtain rfl : vec.items = lines := hitems
  exact ⟨vec', hworker, hstrict, fun line hline => hbuilt line (hsub line hline)⟩

end Paths

/-! ### A file with one variable -/

/-- Every text declares one variable. -/
def variableGrammar : Grammar where
  accepted := true
  query text := some <|
    if h : 5 ≤ text.length then
      [defMatch 0 "kind.variable" 4 5 0 5 ⟨by decide, by decide, h, by decide, h⟩]
    else []

/-- All files are the same, and the language of C files loads. -/
def oneVariable : Corpus where
  grammar name := if name = CStr.lit "c" then some variableGrammar else none
  calls path := {
    opens := path.bytes.length < pathMax
    fstat := some ⟨true, 7⟩
    fdopen := true
    malloc := Malloc.zeros
    fread := fun n => (ascii "int x;\n").take n
    path_lt := by simp
    length_fread_le := fun n => List.length_take_le _ _ }

/-- The file of the directory, read. -/
def variableFile : SourceFile := ⟨CStr.lit "a.c", ascii "int x;\n", by decide, by decide⟩

theorem oneVariable_parses : ∃ ms, oneVariable.Parses variableFile ms ∧
    keptMatches (fileCandidates variableFile ms) = [⟨intX, 0⟩] := by
  have hlang : extToLang (CStr.lit "c") = some (CStr.lit "c") := by decide
  refine ⟨[defMatch 0 "kind.variable" 4 5 0 5 (by decide)], ⟨⟨7, ?_, rfl⟩, by decide, ?_⟩,
    rfl⟩
  · exact ⟨by decide, rfl, by decide, rfl, rfl⟩
  · have hentry : oneVariable.langCacheGet (CStr.lit "c") = some variableGrammar := by
      rw [Corpus.langCacheGet, hlang, Option.bind_some]
      simp [oneVariable]
    exact ⟨CStr.lit "c", variableGrammar, by decide, hentry, rfl, rfl⟩

/-- The line of the file. -/
def variableLine : CStr := CStr.lit "x\ta.c\t/^int x;$/;\"\tvariable\n"

theorem oneVariable_lines : oneVariable.lines (CStr.lit "a.c") = [variableLine] := by
  obtain ⟨ms, hparses, hkept⟩ := oneVariable_parses
  have hline : [(builtLine variableFile ⟨intX, 0⟩).str] = [variableLine] := by decide +kernel
  have hlines : oneVariable.lines variableFile.path = [variableLine] := by
    rw [Corpus.lines_of_parses hparses, tagsOf, hkept, ← hline]
    rfl
  exact hlines

end Tsag
