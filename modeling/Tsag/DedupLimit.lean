import Tsag.FileLines

/-!
# Files with more names than the table remembers

The table has room for `dedupCap` ranges, the loop examines `maxMatchesPerFile`
matches.  A range that gets its first line when the table is full is not
remembered, and gets a line for each of its matches.

## Main results

* `matchLoop_one_line_iff` — when each range has one line.
* `matchLoop_two_lines` — a file with a range that has two.
-/

namespace Tsag

/-- **Each range of a file has one line exactly when every range that gets more than one
line built is among the first `dedupCap` that get one.**  When no allocation fails it
is then the line of the best match, and the ranges are those of the matches that have
a printable name. -/
theorem matchLoop_one_line_iff (file : SourceFile) (vec : LineVec BuiltLine)
    (ms : List (QueryMatch file.text × Memory)) :
    ∃ st lines, matchLoop file 0 ⟨dedupInit, vec⟩ ms = some st ∧
      st.vec.items = vec.items ++ lines ∧
      ((lines.map BuiltLine.range).Nodup ↔ ∀ range,
        2 ≤ ((storedCandidates file ⟨dedupInit, vec⟩ (ms.take maxMatchesPerFile)).map
          Candidate.range).count range →
        range ∈ trackedRanges (storedCandidates file ⟨dedupInit, vec⟩
          (ms.take maxMatchesPerFile))) ∧
      ((∀ m ∈ ms.take maxMatchesPerFile, m.2.Ample) →
        vec.items.length + maxMatchesPerFile ≤ maxCap →
        (((lines.map BuiltLine.range).Nodup ∧ ∀ line ∈ lines,
            bestMatch (candidates file (ms.take maxMatchesPerFile)) line.range
              = some line.origin) ↔
          ∀ range, 2 ≤ ((candidates file (ms.take maxMatchesPerFile)).map
              Candidate.range).count range →
            range ∈ trackedRanges (candidates file (ms.take maxMatchesPerFile)))) := by
  have hlen : (ms.take maxMatchesPerFile).length ≤ maxMatchesPerFile := List.length_take_le _ _
  obtain ⟨st, hrun, hinv⟩ := RangeInv.turns (ms.take maxMatchesPerFile) (rangeInv_init vec)
  rw [List.nil_append] at hinv
  refine ⟨st, st.vec.items.drop vec.items.length, ?_,
    (List.prefix_iff_eq_append.mp hinv.old_prefix).symm, ?_, ?_⟩
  · rw [matchLoop_eq, Nat.sub_zero]
    exact hrun
  · rw [hinv.lines]
    exact nodup_kept_iff _
  · -- With memory for all lines the lines built are those of the matches.
    intro hample hroom
    obtain ⟨st₁, hrun₁, -, hbest⟩ := BestInv.turns (ms.take maxMatchesPerFile)
      (bestInv_init file vec) hample (by simp only; omega)
    obtain rfl := Option.some.inj (hrun.symm.trans hrun₁)
    rw [List.nil_append] at hbest
    rw [hbest.lines, ← nodup_kept_iff]
    apply and_iff_left_of_imp
    intro hnodup line hline
    rw [hbest.built] at hline
    obtain ⟨c, hc, rfl⟩ := List.mem_map.mp hline
    exact bestOf_of_nodup_kept hnodup hc

/-- The method of a class has one line, of the better of its two matches. -/
theorem matchLoop_one_line_iff_method : ∃ st lines, matchLoop classFile 0
    ⟨dedupInit, lineVecNew BuiltLine 128⟩
    [(functionMatch, Memory.plenty), (memberMatch, Memory.plenty)] = some st ∧
    st.vec.items = lines ∧ (lines.map BuiltLine.range).Nodup ∧
    ∀ line ∈ lines, bestMatch (candidates classFile
      [(functionMatch, Memory.plenty), (memberMatch, Memory.plenty)]) line.range
        = some line.origin := by
  obtain ⟨st, lines, hrun, hitems, -, hiff⟩ := matchLoop_one_line_iff classFile
    (lineVecNew BuiltLine 128) [(functionMatch, Memory.plenty), (memberMatch, Memory.plenty)]
  have hample : ∀ m ∈ [(functionMatch, Memory.plenty), (memberMatch, Memory.plenty)],
      m.2.Ample := by
    intro m hm
    rcases List.mem_pair.mp hm with rfl | rfl <;> exact Memory.plenty_ample
  have hranges : (candidates classFile
      [(functionMatch, Memory.plenty), (memberMatch, Memory.plenty)]).map Candidate.range
      = [(14, 15), (14, 15)] := by decide
  have hone := (hiff hample (by decide)).mpr fun range hcount => by
    have hmem : range ∈ [(14, 15), (14, 15)] :=
      hranges ▸ List.count_pos_iff.mp (Nat.lt_of_lt_of_le Nat.zero_lt_two hcount)
    rcases List.mem_pair.mp hmem with rfl | rfl <;> decide
  exact ⟨st, lines, hrun, hitems, hone⟩

/-! ### A file with a thousand variables and a class -/

/-- `1024` assignments and a class with a method, in Python. -/
def manyText : Bytes := (List.replicate 1024 (ascii "x=1\n")).flatten ++ classText

/-- What follows some of the blocks at the start of a text. -/
theorem drop_flatten_replicate (block rest : Bytes) {i n : ℕ} (hi : i ≤ n) :
    ((List.replicate n block).flatten ++ rest).drop (i * block.length)
      = (List.replicate (n - i) block).flatten ++ rest := by
  obtain ⟨k, rfl⟩ := Nat.exists_eq_add_of_le hi
  have hlen : ((List.replicate i block).flatten).length = i * block.length := by
    rw [List.length_flatten, List.map_replicate, List.sum_replicate_nat]
  rw [Nat.add_sub_cancel_left, List.replicate_add, List.flatten_append, List.append_assoc, ← hlen,
    List.drop_left]

theorem length_manyText : manyText.length = 4123 := by
  rw [manyText, List.length_append, List.length_flatten, List.map_replicate,
    List.sum_replicate_nat]
  rfl

/-- The file of these lines. -/
def manyFile : SourceFile :=
  ⟨CStr.lit "m.py", manyText, by decide, by rw [length_manyText]; decide⟩

theorem drop_manyText_assignment {i : ℕ} (hi : i < 1024) :
    (manyText.drop (4 * i)).take 1 = ascii "x" := by
  have hdrop := drop_flatten_replicate (ascii "x=1\n") classText hi.le
  obtain ⟨k, hk⟩ : ∃ k, 1024 - i = k + 1 := Nat.exists_eq_succ_of_ne_zero (by omega)
  rw [hk, List.replicate_succ, Nat.mul_comm] at hdrop
  change (manyText.drop (4 * i)) = _ at hdrop
  rw [hdrop]
  rfl

theorem drop_manyText_class (i : ℕ) : manyText.drop (4096 + i) = classText.drop i := by
  have hdrop := drop_flatten_replicate (ascii "x=1\n") classText (le_refl 1024)
  rw [← List.drop_drop]
  exact congrArg (List.drop i) hdrop

/-- The captures of the queries but `name` have a kind. -/
theorem captureNames_kind_ne : ∀ cap ∈ captureNames, cap ≠ CStr.lit "name" →
    cap.bytes ≠ ascii "name" ∧ 5 < cap.bytes.length ∧ cap.bytes.take 5 = ascii "kind." ∧
      (CStr.ofBuffer (cap.bytes.drop 5)).bytes ≠ [] := by decide

/-- The match of a printable name yields a line of its range. -/
theorem range_candidate_defMatch (file : SourceFile)
    {patternIndex start stop nodeStart nodeStop : ℕ} {kind : String}
    {h : CStr.lit kind ∈ captureNames ∧ start ≤ stop ∧ stop ≤ file.text.length ∧
      nodeStart ≤ nodeStop ∧ nodeStop ≤ file.text.length} (hkind : CStr.lit kind ≠ CStr.lit "name")
    {name : Bytes} (hname : (file.text.drop start).take (stop - start) = name)
    (hne : name ≠ []) (hprint : nameIsPrintable name = true) :
    (candidate file (defMatch patternIndex kind start stop nodeStart nodeStop h)).map
      Candidate.range = some (start, stop) := by
  obtain ⟨hname', hlen, htake, hkindne⟩ := captureNames_kind_ne _ h.1 hkind
  have hextract : extractMatch file.text
      (defMatch patternIndex kind start stop nodeStart nodeStop h).captures
      = some ⟨name, CStr.ofBuffer ((CStr.lit kind).bytes.drop 5), start, stop⟩ := by
    have hlit : (CStr.lit "name").bytes = ascii "name" := by decide
    have hsome : ¬ (name.length = 0 ∨ (CStr.ofBuffer ((CStr.lit kind).bytes.drop 5)).bytes = []) :=
      not_or.mpr ⟨fun h0 => hne (List.length_eq_zero_iff.mp h0), hkindne⟩
    simp only [extractMatch, defMatch, List.foldl_cons, List.foldl_nil, extractStep, hlit, if_true,
      hname', if_false, hlen, htake, and_self, hname, if_neg hsome]
  rw [candidate_eq hextract, if_pos hprint]
  rfl

/-- The match of an assignment. -/
def variableMatch (i : Fin 1024) : QueryMatch manyFile.text :=
  defMatch 14 "kind.variable" (4 * i) (4 * i + 1) (4 * i) (4 * i + 3) (by
    have hlen : manyFile.text.length = 4123 := length_manyText
    refine ⟨by decide, ?_, ?_, ?_, ?_⟩ <;> omega)

/-- The match of a name in the class. -/
def classMatch (patternIndex : ℕ) (kind : String) (start nodeStart nodeStop : ℕ)
    (h : CStr.lit kind ∈ captureNames ∧ start < 4123 ∧ nodeStart ≤ nodeStop ∧ nodeStop ≤ 4123) :
    QueryMatch manyFile.text :=
  defMatch patternIndex kind start (start + 1) nodeStart nodeStop (by
    have hlen : manyFile.text.length = 4123 := length_manyText
    exact ⟨h.1, Nat.le_succ _, by omega, h.2.2.1, by omega⟩)

/-- The matches of the assignments. -/
def assignmentMatches : List (QueryMatch manyFile.text × Memory) :=
  (List.finRange 1024).map fun i => (variableMatch i, Memory.plenty)

/-- The matches of the class: the name of the class, and that of the method as the
name of a function and of a member. -/
def classMatches : List (QueryMatch manyFile.text × Memory) :=
  [(classMatch 1 "kind.class" 4102 4096 4122 (by decide), Memory.plenty),
    (classMatch 0 "kind.function" 4110 4106 4122 (by decide), Memory.plenty),
    (classMatch 2 "kind.member" 4110 4106 4122 (by decide), Memory.plenty)]

theorem map_range_candidates (file : SourceFile) (ms : List (QueryMatch file.text × Memory)) :
    (candidates file ms).map Candidate.range
      = ms.filterMap fun m => (candidate file m.1).map Candidate.range :=
  List.map_filterMap

theorem ranges_assignmentMatches : (candidates manyFile assignmentMatches).map Candidate.range
    = (List.finRange 1024).map fun i : Fin 1024 => (4 * (i : ℕ), 4 * (i : ℕ) + 1) := by
  have hrange : ∀ i : Fin 1024, (candidate manyFile (variableMatch i)).map Candidate.range
      = some (4 * (i : ℕ), 4 * (i : ℕ) + 1) := by
    intro i
    refine range_candidate_defMatch manyFile (by decide) ?_ (by decide : ascii "x" ≠ []) (by decide)
    rw [Nat.add_sub_cancel_left]
    exact drop_manyText_assignment i.isLt
  rw [map_range_candidates, assignmentMatches, List.filterMap_map]
  simp only [Function.comp_def, hrange, List.filterMap_eq_map']

theorem ranges_classMatches : (candidates manyFile classMatches).map Candidate.range
    = [(4102, 4103), (4110, 4111), (4110, 4111)] := by
  have hname : ∀ i n : ℕ, (manyFile.text.drop (4096 + i)).take n = (classText.drop i).take n :=
    fun i n => congrArg (List.take n) (drop_manyText_class i)
  have hclass : (candidate manyFile (classMatch 1 "kind.class" 4102 4096 4122 (by decide))).map
      Candidate.range = some (4102, 4103) :=
    range_candidate_defMatch manyFile (by decide) (hname 6 1) (by decide) (by decide)
  have hfunction : (candidate manyFile
      (classMatch 0 "kind.function" 4110 4106 4122 (by decide))).map Candidate.range
      = some (4110, 4111) :=
    range_candidate_defMatch manyFile (by decide) (hname 14 1) (by decide) (by decide)
  have hmember : (candidate manyFile
      (classMatch 2 "kind.member" 4110 4106 4122 (by decide))).map Candidate.range
      = some (4110, 4111) :=
    range_candidate_defMatch manyFile (by decide) (hname 14 1) (by decide) (by decide)
  rw [map_range_candidates, classMatches]
  simp only [List.filterMap_cons, hclass, hfunction, hmember, List.filterMap_nil]

/-- The assignments fill the table. -/
theorem trackedRanges_many : trackedRanges (candidates manyFile (assignmentMatches ++ classMatches))
    = (List.finRange 1024).map fun i : Fin 1024 => (4 * (i : ℕ), 4 * (i : ℕ) + 1) := by
  have hnodup : ((List.finRange 1024).map fun i : Fin 1024 =>
      (4 * (i : ℕ), 4 * (i : ℕ) + 1)).Nodup := by
    apply (List.nodup_finRange 1024).map
    intro i j hij
    have hstart : 4 * (i : ℕ) = 4 * (j : ℕ) := congrArg Prod.fst hij
    omega
  have hlength : (candidates manyFile assignmentMatches).length = dedupCap := by
    have hmap := congrArg List.length ranges_assignmentMatches
    rw [List.length_map, List.length_map, List.length_finRange] at hmap
    exact hmap
  rw [← ranges_assignmentMatches] at hnodup ⊢
  rw [trackedRanges, candidates, List.filterMap_append]
  exact firstKeys_append hnodup hlength _

theorem count_range_many : ((candidates manyFile (assignmentMatches ++ classMatches)).map
    Candidate.range).count (4110, 4111) = 2 := by
  have hnot : (4110, 4111) ∉ (candidates manyFile assignmentMatches).map Candidate.range := by
    rw [ranges_assignmentMatches, List.mem_map]
    rintro ⟨i, -, hi⟩
    have hstart : 4 * (i : ℕ) = 4110 := congrArg Prod.fst hi
    omega
  have happend : (candidates manyFile (assignmentMatches ++ classMatches)).map Candidate.range
      = (candidates manyFile assignmentMatches).map Candidate.range
        ++ (candidates manyFile classMatches).map Candidate.range := by
    rw [candidates, List.filterMap_append, List.map_append]
    rfl
  rw [happend, List.count_append, List.count_eq_zero.mpr hnot, ranges_classMatches]
  decide

/-- With fewer matches than the loop examines, the method's name gets two lines. -/
theorem matchLoop_two_lines : ∃ st,
    matchLoop manyFile 0 ⟨dedupInit, lineVecNew BuiltLine 128⟩ (assignmentMatches ++ classMatches)
      = some st ∧
    (assignmentMatches ++ classMatches).length < maxMatchesPerFile ∧
    (st.vec.items.map BuiltLine.range).count (4110, 4111) = 2 ∧
    ¬ (st.vec.items.map BuiltLine.range).Nodup := by
  have hlength : (assignmentMatches ++ classMatches).length = 1027 := by
    rw [List.length_append, assignmentMatches, List.length_map, List.length_finRange]
    rfl
  have hample : ∀ m ∈ assignmentMatches ++ classMatches, m.2.Ample := by
    intro m hm
    have hplenty : m.2 = Memory.plenty := by
      rcases List.mem_append.mp hm with hm | hm
      · obtain ⟨i, -, rfl⟩ := List.mem_map.mp hm
        rfl
      · simp only [classMatches, List.mem_cons, List.not_mem_nil, or_false] at hm
        rcases hm with rfl | rfl | rfl <;> rfl
    rw [hplenty]
    exact Memory.plenty_ample
  obtain ⟨st, hrun, -, hinv⟩ := BestInv.turns (assignmentMatches ++ classMatches)
    (bestInv_init manyFile (lineVecNew BuiltLine 128)) hample (by rw [hlength]; decide)
  have hcount : (st.vec.items.map BuiltLine.range).count (4110, 4111) = 2 := by
    have hlines := hinv.lines
    rw [List.nil_append] at hlines
    change st.vec.items.map BuiltLine.range = _ at hlines
    rw [hlines, keptMatches, count_kept]
    refine (if_neg ?_).trans count_range_many
    intro hmem
    change _ ∈ trackedRanges _ at hmem
    rw [trackedRanges_many, List.mem_map] at hmem
    obtain ⟨i, -, hi⟩ := hmem
    have hstart : 4 * (i : ℕ) = 4110 := congrArg Prod.fst hi
    omega
  refine ⟨st, ?_, ?_, hcount, ?_⟩
  · rw [matchLoop_eq, List.take_of_length_le (by rw [hlength]; decide)]
    exact hrun
  · rw [hlength]
    decide
  · intro hnodup
    have hle := List.nodup_iff_count_le_one.mp hnodup (4110, 4111)
    omega

end Tsag
