import Tsag.Program

/-!
# Reading the tags file back

A reader of the tags file splits it at its line feeds and each line at its TABs, takes
the pattern out of its delimiters and undoes the escapes.  Where no path holds one of
the separators and no text a NUL, it finds what the matches said.

## Main definitions

* `Tag`, `readTag`, `readTags` — what a reader makes of a line, and of the file.
* `tagOf` — the tag of a match.
* `Legible` — a file whose lines can be told apart and into fields.

## Main results

* `readTag_lineText` — a line reads as the tag of its match.
* `readTags_flatMap` — so do all lines of the file.
* `execution_reads_back` — what a reader finds in the file an execution writes.
-/

namespace Tsag

/-- What a reader wants of a line: what to look for, in which file, where, and of which
kind it is. -/
structure Tag where
  name : Bytes
  path : Bytes
  /-- The text the pattern stands for. -/
  text : Bytes
  kind : Bytes
  deriving DecidableEq

/-- The pattern between its delimiters. -/
def stripField (field : Bytes) : Option Bytes :=
  if (ascii "/^").isPrefixOf field ∧ (ascii "$/;\"").isSuffixOf field ∧ 6 ≤ field.length then
    some ((field.drop 2).take (field.length - 6))
  else none

/-- A line, without its line feed. -/
def readTag (line : Bytes) : Option Tag :=
  match line.splitOn Byte.tab with
  | [name, path, field, kind] =>
      (stripField field).map fun pattern => ⟨name, path, unescapePattern pattern, kind⟩
  | _ => none

/-- The tags of a file, every line of which ends with a line feed. -/
def readTags (file : Bytes) : Option (List Tag) :=
  let lines := file.splitOn Byte.newline
  if lines.getLast? = some [] then lines.dropLast.mapM readTag else none

/-- The tag of a match. -/
def tagOf (file : SourceFile) (cand : Candidate) : Tag where
  name := cand.info.name
  path := file.path.bytes
  text := (lineWindow file.text cand.info.start).takeWhile fun c => !endsLine c
  kind := cand.info.kind.bytes

/-- Neither separator is in the path, and no NUL in the text. -/
structure Legible (file : SourceFile) : Prop where
  tab : Byte.tab ∉ file.path.bytes
  newline : Byte.newline ∉ file.path.bytes
  nul : (0 : UInt8) ∉ file.text

/-! ### One line -/

theorem stripField_patternField (pattern : Bytes) :
    stripField (patternField pattern) = some pattern := by
  have hopen : (ascii "/^").length = 2 := by decide
  have hclose : (ascii "$/;\"").length = 4 := by decide
  have hpre : (ascii "/^").isPrefixOf (patternField pattern) = true := by
    rw [List.isPrefixOf_iff_prefix, patternField, List.append_assoc]
    exact List.prefix_append _ _
  have hsuf : (ascii "$/;\"").isSuffixOf (patternField pattern) = true := by
    rw [List.isSuffixOf_iff_suffix]
    exact List.suffix_append _ _
  have hlen : (patternField pattern).length = pattern.length + 6 := by
    simp only [patternField, List.length_append, hopen, hclose]
    omega
  rw [stripField, if_pos ⟨hpre, hsuf, by omega⟩, hlen, Nat.add_sub_cancel, patternField,
    List.append_assoc, List.drop_left' hopen, List.take_left]

section Line

variable {file : SourceFile} {cand : Candidate}

/-- The line of a match, without its line feed. -/
def lineBody (file : SourceFile) (m : MatchInfo) : Bytes :=
  [Byte.tab].intercalate
    [m.name, file.path.bytes, patternField (patternOf file.text m).bytes, m.kind.bytes]

theorem lineText_eq_lineBody (m : MatchInfo) :
    lineText file.text m file.path = lineBody file m ++ [Byte.newline] := lineText_eq

/-- **A line reads as the tag of its match**. -/
theorem readTag_lineBody (hfile : Legible file) (hm : cand.info.Valid file.text)
    (hprint : nameIsPrintable cand.info.name = true) :
    readTag (lineBody file cand.info) = some (tagOf file cand) := by
  have hsplit := splitOn_lineText hm hprint hfile.tab (lineText_eq_lineBody cand.info)
  have hnul : (0 : UInt8) ∉ escapeBytes (lineWindow file.text cand.info.start) := fun h =>
    hfile.nul (mem_lineWindow ((List.takeWhile_prefix _).subset ((mem_escapeBytes rfl _).mp h).2)).1
  rw [readTag, hsplit]
  simp only [stripField_patternField, Option.map_some]
  rw [patternOf, CStr.bytes_ofBuffer_of_notMem hnul, unescape_escapeBytes]
  rfl

/-- A line has no line feed but its last byte. -/
theorem newline_not_mem_lineBody (hfile : Legible file) (hm : cand.info.Valid file.text)
    (hprint : nameIsPrintable cand.info.name = true) :
    Byte.newline ∉ lineBody file cand.info := by
  have hcount : (lineText file.text cand.info file.path).count Byte.newline = _ :=
    count_newline_lineText hm hprint
  rw [lineText_eq_lineBody, List.count_append,
    List.count_eq_zero_of_not_mem hfile.newline] at hcount
  have hone : [Byte.newline].count Byte.newline = 1 := by decide
  rw [hone] at hcount
  exact List.count_eq_zero.mp (by omega)

end Line

/-! ### The file -/

/-- Lines that end with a line feed each are found by splitting at it. -/
theorem splitOn_flatMap_newline {bodies : List Bytes} (h : ∀ b ∈ bodies, Byte.newline ∉ b) :
    (bodies.flatMap fun b => b ++ [Byte.newline]).splitOn Byte.newline = bodies ++ [[]] := by
  induction bodies with
  | nil => rfl
  | cons b bodies ih =>
    obtain ⟨hb, hbodies⟩ := List.forall_mem_cons.mp h
    rw [List.flatMap_cons, List.append_assoc, List.singleton_append,
      List.splitOn_append_cons_self_of_not_mem hb, ih hbodies]
    rfl

/-- A line that is told apart from the others and reads as this tag. -/
def Reads (line : CStr) (tag : Tag) : Prop :=
  ∃ body, line.bytes = body ++ [Byte.newline] ∧ Byte.newline ∉ body ∧ readTag body = some tag

theorem Reads.unique {line : CStr} {tag tag' : Tag} (h : Reads line tag) (h' : Reads line tag') :
    tag = tag' := by
  obtain ⟨body, hline, -, hread⟩ := h
  obtain ⟨body', hline', -, hread'⟩ := h'
  obtain rfl := List.append_cancel_right (hline.symm.trans hline')
  exact Option.some.inj (hread.symm.trans hread')

/-- The line of a match reads as its tag. -/
theorem reads_builtLine {file : SourceFile} (hfile : Legible file) {cand : Candidate}
    (hm : cand.info.Valid file.text) (hprint : nameIsPrintable cand.info.name = true) :
    Reads (builtLine file cand).str (tagOf file cand) :=
  ⟨lineBody file cand.info, (builtLine_bytes file hprint).trans (lineText_eq_lineBody _),
    newline_not_mem_lineBody hfile hm hprint, readTag_lineBody hfile hm hprint⟩

/-- **The file reads as the tags of its lines**, in their order. -/
theorem readTags_flatMap {lines : List CStr} (h : ∀ line ∈ lines, ∃ tag, Reads line tag) :
    ∃ tags, readTags (lines.flatMap CStr.bytes) = some tags ∧ List.Forall₂ Reads lines tags := by
  obtain ⟨bodies, tags, hbytes, hapart, hread, hall⟩ : ∃ (bodies : List Bytes) (tags : List Tag),
      lines.flatMap CStr.bytes = (bodies.flatMap fun b => b ++ [Byte.newline]) ∧
      (∀ b ∈ bodies, Byte.newline ∉ b) ∧ bodies.mapM readTag = some tags ∧
      List.Forall₂ Reads lines tags := by
    induction lines with
    | nil => exact ⟨[], [], rfl, by simp, rfl, List.Forall₂.nil⟩
    | cons line lines ih =>
      obtain ⟨⟨tag, htag⟩, hlines⟩ := List.forall_mem_cons.mp h
      obtain ⟨bodies, tags, hbytes, hapart, hread, hall⟩ := ih hlines
      obtain ⟨body, hline, hnl, hbody⟩ := htag
      refine ⟨body :: bodies, tag :: tags, ?_, List.forall_mem_cons.mpr ⟨hnl, hapart⟩, ?_,
        List.Forall₂.cons ⟨body, hline, hnl, hbody⟩ hall⟩
      · rw [List.flatMap_cons, List.flatMap_cons, hbytes, hline]
      · rw [List.mapM_cons, hbody, hread]
        rfl
  refine ⟨tags, ?_, hall⟩
  rw [readTags, hbytes, splitOn_flatMap_newline hapart]
  simp [hread]

/-! ### The file of an execution -/

theorem mem_fileCandidates_spec {file : SourceFile} {ms : List (QueryMatch file.text)}
    {cand : Candidate} (h : cand ∈ fileCandidates file ms) :
    cand.info.Valid file.text ∧ nameIsPrintable cand.info.name = true := by
  obtain ⟨mt, -, hcand⟩ := List.mem_filterMap.mp h
  exact candidate_spec hcand

/-- The tag of a source file under one of the roots. -/
def IsTagOf (fs : FileSystem) (c : Corpus) (roots : List CStr) (tag : Tag) : Prop :=
  ∃ root ∈ roots, ∃ (file : SourceFile) (ms : List (QueryMatch file.text)),
    Listed fs root file.path ∧ isSource fs file.path = true ∧ c.Parses file ms ∧
      ∃ cand ∈ keptMatches (fileCandidates file ms), tag = tagOf file cand

/-- No source file under the roots has a separator in its path or a NUL in its text. -/
def AllLegible (fs : FileSystem) (c : Corpus) (roots : List CStr) : Prop :=
  ∀ root ∈ roots, ∀ (file : SourceFile) (ms : List (QueryMatch file.text)),
    Listed fs root file.path → isSource fs file.path = true → c.Parses file ms → Legible file

/-- A line of such a file reads as one of the tags, and each tag is read from a line. -/
theorem isTagOf_iff {fs : FileSystem} {c : Corpus} {roots : List CStr}
    (hlegible : AllLegible fs c roots) (tag : Tag) :
    IsTagOf fs c roots tag ↔ ∃ line, IsTag fs c roots line ∧ Reads line tag := by
  constructor
  · rintro ⟨root, hroot, file, ms, hlisted, hsource, hparses, cand, hcand, rfl⟩
    obtain ⟨hm, hprint⟩ := mem_fileCandidates_spec (mem_of_mem_kept hcand)
    exact ⟨_, ⟨root, hroot, file, ms, hlisted, hsource, hparses, List.mem_map_of_mem hcand⟩,
      reads_builtLine (hlegible root hroot file ms hlisted hsource hparses) hm hprint⟩
  · rintro ⟨line, ⟨root, hroot, file, ms, hlisted, hsource, hparses, hline⟩, hreads⟩
    obtain ⟨cand, hcand, rfl⟩ := List.mem_map.mp hline
    obtain ⟨hm, hprint⟩ := mem_fileCandidates_spec (mem_of_mem_kept hcand)
    exact ⟨root, hroot, file, ms, hlisted, hsource, hparses, cand, hcand, hreads.unique
      (reads_builtLine (hlegible root hroot file ms hlisted hsource hparses) hm hprint)⟩

theorem IsTag.exists_reads {fs : FileSystem} {c : Corpus} {roots : List CStr}
    (hlegible : AllLegible fs c roots) {line : CStr} (h : IsTag fs c roots line) :
    ∃ tag, Reads line tag := by
  obtain ⟨root, hroot, file, ms, hlisted, hsource, hparses, hline⟩ := h
  obtain ⟨cand, hcand, rfl⟩ := List.mem_map.mp hline
  obtain ⟨hm, hprint⟩ := mem_fileCandidates_spec (mem_of_mem_kept hcand)
  exact ⟨_, reads_builtLine (hlegible root hroot file ms hlisted hsource hparses) hm hprint⟩

theorem nameField_builtLine {file : SourceFile} {cand : Candidate}
    (hprint : nameIsPrintable cand.info.name = true) :
    (nameField (builtLine file cand).str).bytes = cand.info.name := by
  have htab := not_mem_of_nameIsPrintable hprint (c := Byte.tab) rfl
  show (builtLine file cand).str.bytes.takeWhile (· ≠ Byte.tab) = cand.info.name
  rw [builtLine_bytes file hprint, lineText_nested, List.takeWhile_append_of_pos fun x hx => by
    simpa using fun he : x = Byte.tab => htab (he ▸ hx)]
  simp

/-- The tag of a line has the name a reader searches by. -/
theorem IsTag.name_eq {fs : FileSystem} {c : Corpus} {roots : List CStr}
    (hlegible : AllLegible fs c roots) {line : CStr} (h : IsTag fs c roots line) {tag : Tag}
    (hreads : Reads line tag) : tag.name = (nameField line).bytes := by
  obtain ⟨root, hroot, file, ms, hlisted, hsource, hparses, hline⟩ := h
  obtain ⟨cand, hcand, rfl⟩ := List.mem_map.mp hline
  obtain ⟨hm, hprint⟩ := mem_fileCandidates_spec (mem_of_mem_kept hcand)
  rw [nameField_builtLine hprint, hreads.unique
    (reads_builtLine (hlegible root hroot file ms hlisted hsource hparses) hm hprint)]
  rfl

theorem IsTag.tagLine {fs : FileSystem} {c : Corpus} {roots : List CStr} {line : CStr}
    (h : IsTag fs c roots line) : ∃ path, TagLine path line := by
  obtain ⟨root, -, file, ms, -, -, -, hline⟩ := h
  obtain ⟨cand, hcand, rfl⟩ := List.mem_map.mp hline
  exact ⟨file.path, TagLine.of_candidate (mem_of_mem_kept hcand)⟩

/-- **What a reader finds in the file an execution writes**: whatever the interleaving,
if memory is ample and the files are legible, the bytes written read as a list of tags in
the order of their names, and these are the tags of the matches kept in the source files
under the paths. -/
theorem execution_reads_back (fs : FileSystem) (paths : List CStr)
    (hfin : ∀ root ∈ rootsOf paths, {p | Listed fs root p}.Finite) :
    ∃ queue, (∃ turns, ∀ fuel, turns < fuel → enqueuePaths fs fuel paths = some queue) ∧
      (queue.length * maxMatchesPerFile ≤ maxCap →
        ∀ (N : ℕ), 1 ≤ N → N ≤ intMax → ∀ s : PipelineState (Config.healthy N queue),
          (pipelineLts (Config.healthy N queue)).Reachable s → s.Exited →
          ∀ (qsort : Qsort BuiltLine (compareLines BuiltLine.str)) (c : Corpus)
            (mem : Fin N → ℕ → ℕ → Memory) (heap : List HeapEntry),
            AllLegible fs c (rootsOf paths) → (∀ w k j, (mem w k j).Ample) →
            (heap.length : ℤ) = (Config.healthy N queue).mergeN → ∃ out tags,
              s.written qsort c mem heap = some out ∧
              readTags (out.flatMap fun line => line.str.bytes) = some tags ∧
              (∀ tag, tag ∈ tags ↔ IsTagOf fs c (rootsOf paths) tag) ∧
              tags.Pairwise fun a b => strcmpBytes a.name b.name ≠ .gt) := by
  obtain ⟨queue, hrun, hmem, -⟩ := exists_enqueuePaths hfin
  refine ⟨queue, hrun, ?_⟩
  intro hroom N hN hmax s hreach hexit qsort c mem heap hlegible hample hheap
  obtain ⟨out, hout, horder, hlines, -⟩ := written_lines (Config.isHealthy_healthy N queue)
    hN hmax hreach hexit qsort (c := c) hample hroom hheap
  have htags : ∀ line, line ∈ out.map BuiltLine.str ↔ IsTag fs c (rootsOf paths) line := fun line =>
    (hlines line).trans (exists_mem_lines_iff hmem)
  -- each line reads as one tag, and no line feed stands inside one
  obtain ⟨tags, hread, hall⟩ := readTags_flatMap fun line hline =>
    ((htags line).mp hline).exists_reads hlegible
  refine ⟨out, tags, hout, ?_, ?_, ?_⟩
  · rw [← hread, List.flatMap_map]
  · intro tag
    rw [isTagOf_iff hlegible]
    simp only [← htags]
    constructor
    · intro htag
      obtain ⟨i, hi, rfl⟩ := List.getElem_of_mem htag
      have hi' : i < (out.map BuiltLine.str).length := hall.length_eq ▸ hi
      exact ⟨_, List.getElem_mem hi', hall.get hi' hi⟩
    · rintro ⟨line, hline, hreads⟩
      obtain ⟨i, hi, rfl⟩ := List.getElem_of_mem hline
      have hi' : i < tags.length := hall.length_eq ▸ hi
      rw [hreads.unique (hall.get hi hi')]
      exact List.getElem_mem hi'
  · -- The names are in order because the lines are.
    rw [List.pairwise_iff_getElem]
    intro i j hi hj hij
    have hi' : i < (out.map BuiltLine.str).length := hall.length_eq ▸ hi
    have hj' : j < (out.map BuiltLine.str).length := hall.length_eq ▸ hj
    have hline := (htags _).mp (List.getElem_mem hi')
    have hline' := (htags _).mp (List.getElem_mem hj')
    obtain ⟨path, hpath⟩ := hline.tagLine
    obtain ⟨path', hpath'⟩ := hline'.tagLine
    have hle := List.pairwise_iff_getElem.mp (List.pairwise_map.mpr horder) i j hi' hj' hij
    have hname : tags[i].name = (nameField (out.map BuiltLine.str)[i]).bytes :=
      hline.name_eq hlegible (hall.get hi' hi)
    have hname' : tags[j].name = (nameField (out.map BuiltLine.str)[j]).bytes :=
      hline'.name_eq hlegible (hall.get hj' hj)
    rw [hname, hname']
    exact (strcmp_ne_gt_iff _ _).mpr (nameField_le hpath hpath' hle)

theorem oneVariable_legible : AllLegible oneFile oneVariable (rootsOf []) := by
  intro root hroot file ms hlisted _ hparses
  obtain rfl := List.mem_singleton.mp hroot
  have hpaths : ∀ p ∈ [CStr.lit ".", CStr.lit "a.c"],
      Byte.tab ∉ p.bytes ∧ Byte.newline ∉ p.bytes := by decide
  obtain ⟨htab, hnl⟩ := hpaths _ (oneFile_listed hlisted)
  refine ⟨htab, hnl, ?_⟩
  obtain ⟨n, -, htext⟩ := hparses.read
  rw [htext]
  intro h
  exact absurd (List.mem_of_mem_take h) (by decide)

theorem execution_reads_back_oneFile : ∃ (queue : List CStr)
    (s : PipelineState (Config.healthy 2 queue)) (out : List BuiltLine) (tags : List Tag),
    (pipelineLts (Config.healthy 2 queue)).Reachable s ∧ s.Exited ∧
      s.written (Qsort.mergeSort BuiltLine.str) oneVariable (fun _ _ _ => Memory.plenty)
        [⟨0, 0⟩, ⟨0, 0⟩] = some out ∧
      readTags (out.flatMap fun line => line.str.bytes) = some tags ∧
      ⟨ascii "x", ascii "a.c", ascii "int x;", ascii "variable"⟩ ∈ tags := by
  obtain ⟨queue, ⟨turns, hrun⟩, hreads⟩ := execution_reads_back oneFile [] oneFile_finite
  have hlen := length_oneFile_queue hrun
  have hmax : 2 * maxMatchesPerFile ≤ maxCap := by decide
  have hjobs : 1 ≤ (Config.healthy 2 queue).jobs := Nat.le_succ 1
  obtain ⟨s, hreach, hexit, -⟩ := exists_execution (Config.isHealthy_healthy 2 queue) hjobs
    (fun _ => ⟨0, hjobs⟩) (List.Perm.refl _)
  obtain ⟨out, tags, hout, hread, htags, -⟩ := hreads
    ((Nat.mul_le_mul_right _ hlen).trans hmax) 2 (by decide) (by decide) s hreach hexit
    (Qsort.mergeSort BuiltLine.str) oneVariable (fun _ _ _ => Memory.plenty) [⟨0, 0⟩, ⟨0, 0⟩]
    oneVariable_legible (fun _ _ _ => Memory.plenty_ample) length_twoHeap
  refine ⟨queue, s, out, tags, hreach, hexit, hout, hread, (htags _).mpr ?_⟩
  have hlisted : Listed oneFile (CStr.lit ".") (childPath (CStr.lit ".") (CStr.lit "a.c")) :=
    Listed.root.entry rfl rfl (by simp) (by decide)
  obtain ⟨ms, hparses, hkept⟩ := oneVariable_parses
  exact ⟨CStr.lit ".", List.mem_singleton_self _, variableFile, ms, hlisted, by decide +kernel,
    hparses, ⟨intX, 0⟩, by simp [hkept], by decide +kernel⟩

end Tsag
