import Tsag.ParseFile

/-!
# The lines of a file

Which lines the match loop leaves behind those of earlier files.  Of the matches
whose lines are stored, the table remembers the first `dedupCap` ranges; a range it
remembers keeps one line, any other range keeps all of its lines.

## Main definitions

* `candidate` — a match that yields a line when memory is ample.
* `storedCandidate`, `storedCandidates` — the matches whose lines are stored, turn by
  turn and over the loop, allocations failing as they may.
* `RangeInv`, `BestInv` — the invariants of the loop, with and without failures.

## Main results

* `RangeInv.turn`, `BestInv.turn` — a turn keeps them.
* `matchLoop_keeps_best` — the lines a file adds, and the slots its turns claim.
-/

namespace Tsag

/-! ### Lines with ample memory -/

theorem escapeWidth_le (src : Bytes) : escapeWidth src ≤ 2 * src.length := by
  induction src with
  | nil => exact le_rfl
  | cons c src ih =>
    rw [escapeWidth, List.length_cons]
    split
    · omega
    · split <;> omega

theorem length_patternOf_le (source : Bytes) (m : MatchInfo) :
    (patternOf source m).bytes.length ≤ 4 * maxLineLen := by
  have hpattern : (patternOf source m).bytes.length
      ≤ (escapeBytes (lineWindow source m.start)).length := by
    rw [patternOf, CStr.bytes_ofBuffer]
    exact (List.takeWhile_prefix _).length_le
  have hwidth := escapeWidth_le (lineWindow source m.start)
  rw [length_escapeBytes] at hpattern
  rw [length_lineWindow] at hwidth
  omega

theorem length_kind_le : ∀ kind ∈ kindNames.map CStr.lit, kind.bytes.length ≤ 10 := by decide

theorem length_lineText_le (file : SourceFile) {m : MatchInfo} (hm : m.Valid file.text) :
    (lineText file.text m file.path).length ≤ intMax := by
  have hname : m.name.length ≤ file.text.length := by
    rw [hm.name_eq, List.length_take, List.length_drop]
    omega
  have hpath := file.path_lt
  have hsize := file.size_le
  have hpattern := length_patternOf_le file.text m
  have hkind := length_kind_le m.kind hm.kind_mem
  have hopen : (ascii "/^").length = 2 := by decide
  have hclose : (ascii "$/;\"").length = 4 := by decide
  unfold pathMax at hpath
  unfold maxFileSize at hsize
  unfold maxLineLen at hpattern
  simp only [lineText, formatLine, patternField, List.length_append, List.length_singleton,
    hopen, hclose, intMax]
  omega

/-- With ample memory `make_line` fails for unprintable names alone. -/
theorem makesLine_iff (file : SourceFile) {m : MatchInfo} {mem : Memory} (hm : m.Valid file.text)
    (hmem : mem.Ample) : MakesLine mem.pattern mem.line m file.text file.path ↔
      nameIsPrintable m.name = true :=
  ⟨fun h => h.printable, fun h =>
    ⟨h, hmem.pattern _, length_lineText_le file hm, hmem.line _⟩⟩

/-- The line of a match. -/
def builtLine (file : SourceFile) (c : Candidate) : BuiltLine :=
  ⟨CStr.ofBuffer (lineText file.text c.info file.path), c⟩

theorem builtLine_bytes (file : SourceFile) {c : Candidate}
    (hprint : nameIsPrintable c.info.name = true) :
    (builtLine file c).str.bytes = lineText file.text c.info file.path :=
  CStr.bytes_ofBuffer_of_notMem (nul_not_mem_lineText hprint)

/-- A match that yields a line when memory is ample. -/
def candidate (file : SourceFile) (mt : QueryMatch file.text) : Option Candidate :=
  (extractMatch file.text mt.captures).bind fun m =>
    if nameIsPrintable m.name then some ⟨m, mt.patternIndex⟩ else none

/-- A match whose line is built, when the vector has or gets room for it. -/
def storedCandidate (file : SourceFile) (st : MatchState) (mt : QueryMatch file.text)
    (mem : Memory) : Option Candidate :=
  (extractMatch file.text mt.captures).bind fun m =>
    match makeLine mem.pattern mem.line m file.text file.path with
    | some (some line) =>
        if (lineVecPush st.vec ⟨line, m, mt.patternIndex⟩ mem.realloc).isSome
        then some ⟨m, mt.patternIndex⟩ else none
    | _ => none

/-- The matches stored in the turns of some matches. -/
def storedCandidates (file : SourceFile) :
    MatchState → List (QueryMatch file.text × Memory) → List Candidate
  | _, [] => []
  | st, (mt, mem) :: ms =>
      (storedCandidate file st mt mem).toList ++
        (matchTurn file st mt mem).elim [] fun st => storedCandidates file st ms

/-- The ranges the table remembers of some matches. -/
abbrev trackedRanges (L : List Candidate) : List (ℕ × ℕ) := firstKeys Candidate.range dedupCap L

/-- The best match of a range: the greatest `pattern_index`, the earliest of equal ones. -/
abbrev bestMatch (L : List Candidate) (range : ℕ × ℕ) : Option Candidate :=
  bestOf Candidate.range Candidate.pattern L range

/-- The matches whose lines are left: for a range remembered the best in the place of the
first, for another range all. -/
abbrev keptMatches (L : List Candidate) : List Candidate :=
  kept Candidate.range Candidate.pattern dedupCap L

/-! ### The ranges of the lines -/

/-- The invariant of the loop when allocations may fail: the table has the ranges it
remembers of the matches stored, and the ranges of the file's lines are those of the
matches kept. -/
structure RangeInv (old : List BuiltLine) (L : List Candidate) (st : MatchState) : Prop
    extends SlotInv old st where
  ranges : st.seen.entries.map DedupEntry.range = trackedRanges L
  lines : (st.vec.items.drop old.length).map BuiltLine.range
    = (keptMatches L).map Candidate.range

section Turn

variable {file : SourceFile} {old : List BuiltLine} {L : List Candidate} {st st' : MatchState}
  {mt : QueryMatch file.text} {mem : Memory}

theorem RangeInv.mem_iff (h : RangeInv old L st) {r : ℕ × ℕ} :
    r ∈ trackedRanges L ↔ ∃ e ∈ st.seen.entries, e.range = r := by
  rw [← h.ranges, List.mem_map]

/-- A range without an entry is not remembered. -/
theorem RangeInv.notMem_of_new (h : RangeInv old L st) {r : ℕ × ℕ}
    (hnew : ∀ e ∈ st.seen.entries, e.range ≠ r) : r ∉ trackedRanges L := by
  rw [h.mem_iff]
  rintro ⟨e, he, hrange⟩
  exact hnew e he hrange

theorem RangeInv.length_eq (h : RangeInv old L st) :
    (trackedRanges L).length = st.seen.entries.length := by
  rw [← h.ranges, List.length_map]

/-- One more match of a range remembered changes neither list of ranges. -/
theorem ranges_snoc_of_mem {c : Candidate} (hc : c.range ∈ trackedRanges L) :
    trackedRanges (L ++ [c]) = trackedRanges L ∧
      (keptMatches (L ++ [c])).map Candidate.range = (keptMatches L).map Candidate.range := by
  constructor
  · rw [trackedRanges, firstKeys_snoc, if_pos (Or.inl hc)]
  · rw [keptMatches, map_kept_snoc, if_pos hc]

/-- Storing the line of a range remembered in the place of one of the range changes no
range of the lines. -/
theorem map_range_set {lines : List BuiltLine} {i : ℕ} {line b : BuiltLine}
    (hget : lines[i]? = some line) (hrange : line.range = b.range) :
    (lines.set i b).map BuiltLine.range = lines.map BuiltLine.range := by
  obtain ⟨hlt, hget⟩ := List.getElem?_eq_some_iff.mp hget
  have hself : lines.set i lines[i] = lines := List.set_getElem_self hlt
  rw [List.map_set, ← hrange, ← hget, ← List.map_set, hself]

/-- The match stored in a turn, for a match whose line is built. -/
theorem storedCandidate_eq {m : MatchInfo} {line : CStr}
    (hm : extractMatch file.text mt.captures = some m)
    (hline : makeLine mem.pattern mem.line m file.text file.path = some (some line)) :
    storedCandidate file st mt mem
      = if (lineVecPush st.vec ⟨line, m, mt.patternIndex⟩ mem.realloc).isSome
        then some ⟨m, mt.patternIndex⟩ else none := by
  simp [storedCandidate, hm, hline]

theorem storedCandidate_eq_none {m : MatchInfo}
    (hm : extractMatch file.text mt.captures = some m)
    (hline : makeLine mem.pattern mem.line m file.text file.path = some none) :
    storedCandidate file st mt mem = none := by
  simp [storedCandidate, hm, hline]

/-- What is stored of a match with a name is that match, if anything. -/
theorem mem_storedCandidate {m : MatchInfo} (hm : extractMatch file.text mt.captures = some m) :
    ∀ c ∈ storedCandidate file st mt mem, c = ⟨m, mt.patternIndex⟩ := by
  intro c hc
  rw [storedCandidate, hm, Option.bind_some] at hc
  split at hc
  · split at hc
    · exact (Option.some.inj hc).symm
    · cases hc
  · cases hc

/-- A turn of a range remembered changes no range, whether or not the match is stored. -/
theorem RangeInv.of_remembered (h : RangeInv old L st) (ht : MatchTurn file st mt mem st')
    {m : MatchInfo} {e : DedupEntry} (hm : extractMatch file.text mt.captures = some m)
    (he : e ∈ st.seen.entries) (hrange : e.range = (m.start, m.stop))
    (hranges : st'.seen.entries.map DedupEntry.range = st.seen.entries.map DedupEntry.range)
    (hlines : (st'.vec.items.drop old.length).map BuiltLine.range
      = (st.vec.items.drop old.length).map BuiltLine.range) :
    RangeInv old (L ++ (storedCandidate file st mt mem).toList) st' := by
  have hslot := h.toSlotInv.turn ht
  cases hstored : storedCandidate file st mt mem with
  | none =>
    rw [Option.toList_none, List.append_nil]
    exact ⟨hslot, hranges.trans h.ranges, hlines.trans h.lines⟩
  | some c =>
    have hc : c.range ∈ trackedRanges L := by
      rw [mem_storedCandidate hm c hstored]
      exact h.mem_iff.mpr ⟨e, he, hrange⟩
    obtain ⟨hsame, hkept⟩ := ranges_snoc_of_mem hc
    refine ⟨hslot, ?_, ?_⟩
    · rw [Option.toList_some, hsame]
      exact hranges.trans h.ranges
    · rw [Option.toList_some, hkept]
      exact hlines.trans h.lines

/-- **A turn keeps the ranges in step**, with the match it stores if it stores one. -/
theorem RangeInv.turn (h : RangeInv old L st) (ht : MatchTurn file st mt mem st') :
    RangeInv old (L ++ (storedCandidate file st mt mem).toList) st' := by
  have hnone : ∀ c : Option Candidate, c = none → RangeInv old (L ++ c.toList) st := by
    rintro _ rfl
    rwa [Option.toList_none, List.append_nil]
  have hcases := ht
  cases hcases with
  | skipped hm => exact hnone _ (by simp [storedCandidate, hm])
  | @dropped m pre post e hm hentries hrange hle =>
    exact h.of_remembered ht hm (by simp [hentries]) hrange rfl rfl
  | unbuilt hm hnew hline => exact hnone _ (storedCandidate_eq_none hm hline)
  | unpushed hm hnew hline hpush =>
    exact hnone _ (by simp [storedCandidate_eq hm hline, hpush])
  | @pushed m line vec hm hnew hline hpush =>
    -- The range is new: it is remembered if there is room, and its line is kept in any case.
    have hstored : storedCandidate file st mt mem = some ⟨m, mt.patternIndex⟩ := by
      simp [storedCandidate_eq hm hline, hpush]
    have hnot : Candidate.range ⟨m, mt.patternIndex⟩ ∉ trackedRanges L := h.notMem_of_new hnew
    refine ⟨h.toSlotInv.turn ht, ?_, ?_⟩
    · rw [dedupTrack_ranges, hstored, Option.toList_some, trackedRanges, firstKeys_snoc, h.ranges,
        ← h.length_eq]
      simp only [hnot, false_or]
      by_cases hroom : (trackedRanges L).length < dedupCap
      · rw [if_pos hroom, if_neg (Nat.not_le.mpr hroom)]
        rfl
      · rw [if_neg hroom, if_pos (Nat.not_lt.mp hroom)]
    · have hkept : keptMatches (L ++ [⟨m, mt.patternIndex⟩])
          = keptMatches L ++ [⟨m, mt.patternIndex⟩] := kept_snoc_of_notMem hnot
      rw [lineVecPush_items hpush, List.drop_append_of_le_length h.old_prefix.length_le,
        List.map_append, h.lines, hstored, Option.toList_some, hkept, List.map_append]
      rfl
  | @raised m pre post e hm hentries hrange hlt hline =>
    -- The line of the match fails, and the range keeps the line it has.
    refine h.of_remembered ht hm (by simp [hentries]) hrange ?_ rfl
    rw [hentries, map_range_raise]
  | @replaced m line pre post e hm hentries hrange hlt hline =>
    -- The better match takes the place of the line that its range has.
    have he : e ∈ st.seen.entries := by simp [hentries]
    obtain ⟨hle, line₀, hget, hrange₀⟩ := h.slots e he
    apply h.of_remembered ht hm he hrange
    · rw [hentries, map_range_raise]
    · rw [List.drop_set, if_neg (Nat.not_lt.mpr hle)]
      have hplace : (st.vec.items.drop old.length)[e.idx - old.length]? = some line₀ := by
        rw [List.getElem?_drop, Nat.add_sub_cancel' hle]
        exact hget
      exact map_range_set hplace (hrange₀.trans hrange)

/-! ### The best matches -/

theorem candidate_eq {m : MatchInfo} (hm : extractMatch file.text mt.captures = some m) :
    candidate file mt = if nameIsPrintable m.name then some ⟨m, mt.patternIndex⟩ else none := by
  rw [candidate, hm, Option.bind_some]

/-- A match that yields a line names a slice of the text, and all of it is printable. -/
theorem candidate_spec {c : Candidate} (h : candidate file mt = some c) :
    c.info.Valid file.text ∧ nameIsPrintable c.info.name = true := by
  obtain ⟨m, hm, hprint⟩ := Option.bind_eq_some_iff.mp h
  split at hprint
  · next hp =>
    obtain rfl := Option.some.inj hprint
    exact ⟨QueryMatch.valid hm, hp⟩
  · cases hprint

theorem nameIsPrintable_of_makeLine {m : MatchInfo} {line : CStr}
    (hm : extractMatch file.text mt.captures = some m)
    (hline : makeLine mem.pattern mem.line m file.text file.path = some (some line)) :
    nameIsPrintable m.name = true :=
  (makeLine_eq_some (QueryMatch.valid hm) file.size_le hline).1

theorem not_nameIsPrintable_of_makeLine {m : MatchInfo} (hmem : mem.Ample)
    (hm : extractMatch file.text mt.captures = some m)
    (hline : makeLine mem.pattern mem.line m file.text file.path = some none) :
    ¬ nameIsPrintable m.name = true := by
  intro hprint
  have hvalid := QueryMatch.valid hm
  obtain ⟨line, hline', -⟩ := makeLine_of_makesLine hvalid file.size_le
    ((makesLine_iff file hvalid hmem).mpr hprint)
  rw [hline] at hline'
  cases hline'

/-- The line built is the line of the match. -/
theorem builtLine_eq {m : MatchInfo} {line : CStr}
    (hm : extractMatch file.text mt.captures = some m)
    (hline : makeLine mem.pattern mem.line m file.text file.path = some (some line)) :
    (⟨line, m, mt.patternIndex⟩ : BuiltLine) = builtLine file ⟨m, mt.patternIndex⟩ := by
  obtain ⟨hprint, hbytes⟩ := makeLine_eq_some (QueryMatch.valid hm) file.size_le hline
  have hstr : line = (builtLine file ⟨m, mt.patternIndex⟩).str := by
    apply CStr.ext
    rw [hbytes, builtLine_bytes file hprint]
  rw [hstr]
  rfl

/-- With ample memory the matches stored are those that yield a line. -/
theorem storedCandidate_eq_candidate (hmem : mem.Ample)
    (hroom : st.vec.items.length ≤ maxCap) :
    storedCandidate file st mt mem = candidate file mt := by
  cases hm : extractMatch file.text mt.captures with
  | none => simp [storedCandidate, candidate, hm]
  | some m =>
    rw [candidate_eq hm]
    obtain ⟨r, hline⟩ := exists_makeLine mem hm
    cases r with
    | none =>
      rw [storedCandidate_eq_none hm hline, if_neg (not_nameIsPrintable_of_makeLine hmem hm hline)]
    | some line =>
      rw [storedCandidate_eq hm hline, if_pos (nameIsPrintable_of_makeLine hm hline), hmem.realloc,
        if_pos (isSome_lineVecPush _ hroom)]

variable (file) in
/-- The invariant of the loop when no allocation fails: the file's lines are those of the
matches kept, and the table has the patterns of the best matches. -/
structure BestInv (old : List BuiltLine) (L : List Candidate) (st : MatchState) : Prop
    extends RangeInv old L st where
  named : ∀ c ∈ L, c.info.Valid file.text ∧ nameIsPrintable c.info.name = true
  built : st.vec.items.drop old.length = (keptMatches L).map (builtLine file)
  best : ∀ e ∈ st.seen.entries, ∃ b, bestMatch L e.range = some b ∧ b.pattern = e.pattern

/-- A name whose range has an entry is printable: it is the name of another match. -/
theorem BestInv.printable (h : BestInv file old L st) {m : MatchInfo}
    (hm : extractMatch file.text mt.captures = some m) {e : DedupEntry}
    (he : e ∈ st.seen.entries) (hrange : e.range = (m.start, m.stop)) :
    nameIsPrintable m.name = true := by
  obtain ⟨c, hc, hcr⟩ := List.mem_map.mp (mem_map_of_mem_firstKeys (h.mem_iff.mpr ⟨e, he, hrange⟩))
  obtain ⟨hvalid, hprint⟩ := h.named c hc
  obtain ⟨hstart, hstop⟩ := Prod.ext_iff.mp hcr
  have hname : c.info.name = m.name := by
    rw [hvalid.name_eq, (QueryMatch.valid hm).name_eq]
    change c.info.start = m.start at hstart
    change c.info.stop = m.stop at hstop
    rw [hstart, hstop]
  rwa [← hname]

theorem BestInv.candidate_eq_some (h : BestInv file old L st) {m : MatchInfo}
    (hm : extractMatch file.text mt.captures = some m) {e : DedupEntry}
    (he : e ∈ st.seen.entries) (hrange : e.range = (m.start, m.stop)) :
    candidate file mt = some ⟨m, mt.patternIndex⟩ := by
  rw [candidate_eq hm, if_pos (h.printable hm he hrange)]

/-- One more match changes the best of its own range alone. -/
theorem BestInv.best_of_ne (h : BestInv file old L st) {c : Candidate} {e : DedupEntry}
    (he : e ∈ st.seen.entries) (hne : e.range ≠ c.range) :
    ∃ b, bestMatch (L ++ [c]) e.range = some b ∧ b.pattern = e.pattern := by
  rw [bestMatch, bestOf_snoc_of_ne hne.symm]
  exact h.best e he

/-- The line at the place of an entry is that of the match kept for its range, so a better
match is kept in that place. -/
theorem BestInv.kept_of_lt (h : BestInv file old L st) {c b : Candidate} {e : DedupEntry}
    (he : e ∈ st.seen.entries) (hrange : e.range = c.range)
    (hb : bestMatch L c.range = some b) (hlt : b.pattern < c.pattern) :
    keptMatches (L ++ [c]) = (keptMatches L).set (e.idx - old.length) c := by
  obtain ⟨hle, line₀, hget, hrange₀⟩ := h.slots e he
  have hplace : ((keptMatches L).map (builtLine file))[e.idx - old.length]? = some line₀ := by
    rw [← h.built, List.getElem?_drop, Nat.add_sub_cancel' hle]
    exact hget
  rw [List.getElem?_map, Option.map_eq_some_iff] at hplace
  obtain ⟨x, hx, rfl⟩ := hplace
  exact kept_snoc_of_lt (h.mem_iff.mpr ⟨e, he, hrange⟩) hb hlt hx (hrange₀.trans hrange)

/-- **A turn keeps the lines and the patterns those of the best matches**, if its
allocations succeed. -/
theorem BestInv.turn (h : BestInv file old L st) (hmem : mem.Ample)
    (hroom : st.vec.items.length ≤ maxCap) (ht : MatchTurn file st mt mem st') :
    BestInv file old (L ++ (candidate file mt).toList) st' := by
  have hranges := h.toRangeInv.turn ht
  rw [storedCandidate_eq_candidate hmem hroom] at hranges
  have hnamed : ∀ c ∈ L ++ (candidate file mt).toList,
      c.info.Valid file.text ∧ nameIsPrintable c.info.name = true := by
    intro c hc
    rcases List.mem_append.mp hc with hc | hc
    · exact h.named c hc
    · exact candidate_spec (by simpa using hc)
  cases ht with
  | skipped hm =>
    -- The match has no name or no kind, and is no candidate.
    have hnone : candidate file mt = none := by simp [candidate, hm]
    rwa [hnone, Option.toList_none, List.append_nil]
  | @dropped m pre post e hm hentries hrange hle =>
    -- The range is in the table, with a pattern as good or better.
    have he : e ∈ st.seen.entries := by simp [hentries]
    have hc := h.candidate_eq_some hm he hrange
    obtain ⟨b, hb, hpattern⟩ := h.best e he
    rw [hrange] at hb
    rw [hc, Option.toList_some] at hranges hnamed ⊢
    have hle' : mt.patternIndex ≤ b.pattern := hpattern ▸ hle
    refine ⟨hranges, hnamed, ?_, ?_⟩
    · have hkept : keptMatches (L ++ [⟨m, mt.patternIndex⟩]) = keptMatches L :=
        kept_snoc_of_le (h.mem_iff.mpr ⟨e, he, hrange⟩) hb hle'
      rw [hkept]
      exact h.built
    · intro x hx
      rw [bestMatch, bestOf_snoc_of_le hb hle']
      exact h.best x hx
  | unbuilt hm hnew hline =>
    -- With ample memory a line fails to be made only for its name.
    have hnone : candidate file mt = none := by
      rw [candidate_eq hm, if_neg (not_nameIsPrintable_of_makeLine hmem hm hline)]
    rwa [hnone, Option.toList_none, List.append_nil]
  | @unpushed m line hm hnew hline hpush =>
    -- With ample memory the push succeeds.
    have hsome : (lineVecPush st.vec ⟨line, m, mt.patternIndex⟩ true).isSome :=
      isSome_lineVecPush _ hroom
    rw [hmem.realloc] at hpush
    rw [hpush] at hsome
    cases hsome
  | @pushed m line vec hm hnew hline hpush =>
    -- A range that is not in the table gets a line of its own.
    have hprint := nameIsPrintable_of_makeLine hm hline
    have hc : candidate file mt = some ⟨m, mt.patternIndex⟩ := by
      rw [candidate_eq hm, if_pos hprint]
    have hnot : Candidate.range ⟨m, mt.patternIndex⟩ ∉ trackedRanges L := h.notMem_of_new hnew
    rw [hc, Option.toList_some] at hranges hnamed ⊢
    refine ⟨hranges, hnamed, ?_, ?_⟩
    · have hkept : keptMatches (L ++ [⟨m, mt.patternIndex⟩])
          = keptMatches L ++ [⟨m, mt.patternIndex⟩] := kept_snoc_of_notMem hnot
      rw [lineVecPush_items hpush, List.drop_append_of_le_length h.old_prefix.length_le, h.built,
        hkept, List.map_append, List.map_singleton, builtLine_eq hm hline]
    · refine forall_mem_dedupTrack (fun e he => h.best_of_ne he (hnew e he)) ?_
      intro hspace
      -- the table has room, so the range has not come before
      have hfirst : Candidate.range ⟨m, mt.patternIndex⟩ ∉ L.map Candidate.range := fun hmem =>
        hnot (mem_firstKeys_of_length_lt hmem (h.length_eq ▸ hspace))
      exact ⟨⟨m, mt.patternIndex⟩, bestOf_snoc_of_notMem hfirst, rfl⟩
  | @raised m pre post e hm hentries hrange hlt hline =>
    -- An entry in the table has had its line made, so this one is made as well.
    exact absurd (h.printable hm (by simp [hentries]) hrange)
      (not_nameIsPrintable_of_makeLine hmem hm hline)
  | @replaced m line pre post e hm hentries hrange hlt hline =>
    -- The better match takes the place of the line there was.
    have he : e ∈ st.seen.entries := by simp [hentries]
    have hc := h.candidate_eq_some hm he hrange
    obtain ⟨b, hb, hpattern⟩ := h.best e he
    rw [hrange] at hb
    have hlt' : b.pattern < mt.patternIndex := hpattern ▸ hlt
    rw [hc, Option.toList_some] at hranges hnamed ⊢
    refine ⟨hranges, hnamed, ?_, ?_⟩
    · have hkept : keptMatches (L ++ [⟨m, mt.patternIndex⟩])
          = (keptMatches L).set (e.idx - old.length) ⟨m, mt.patternIndex⟩ :=
        h.kept_of_lt he hrange hb hlt'
      rw [List.drop_set, if_neg (Nat.not_lt.mpr (h.slots e he).1), h.built, hkept, List.map_set,
        builtLine_eq hm hline]
    · have hnodup := h.nodup
      rw [hentries] at hnodup
      apply forall_mem_middle
      · show ∃ b, bestMatch (L ++ [⟨m, mt.patternIndex⟩]) e.range = some b ∧ _
        rw [hrange]
        exact ⟨⟨m, mt.patternIndex⟩, bestOf_snoc_of_lt hb hlt', rfl⟩
      · intro x hx
        have hne : x.range ≠ (m.start, m.stop) := hrange ▸ range_ne_of_nodup hnodup x hx
        exact h.best_of_ne (hentries ▸ mem_middle_of_mem hx) hne

/-! ### The loop -/

theorem MatchTurn.length_le (ht : MatchTurn file st mt mem st') :
    st'.vec.items.length ≤ st.vec.items.length + 1 := by
  cases ht with
  | skipped _ => exact Nat.le_succ _
  | dropped _ _ _ _ => exact Nat.le_succ _
  | unbuilt _ _ _ => exact Nat.le_succ _
  | unpushed _ _ _ _ => exact Nat.le_succ _
  | pushed _ _ _ hpush => rw [lineVecPush_items hpush, List.length_append, List.length_singleton]
  | raised _ _ _ _ _ => exact Nat.le_succ _
  | replaced _ _ _ _ _ =>
    rw [List.length_set]
    exact Nat.le_succ _

/-- The turns of some matches keep the ranges in step. -/
theorem RangeInv.turns (ms : List (QueryMatch file.text × Memory)) :
    ∀ {L : List Candidate} {st : MatchState}, RangeInv old L st →
      ∃ st', matchTurns file st ms = some st' ∧
        RangeInv old (L ++ storedCandidates file st ms) st' := by
  induction ms with
  | nil =>
    intro L st h
    exact ⟨st, rfl, by rwa [storedCandidates, List.append_nil]⟩
  | cons m ms ih =>
    intro L st h
    obtain ⟨mt, mem⟩ := m
    obtain ⟨st₁, hturn, heffect⟩ := matchTurn_spec h.toSlotInv mt mem
    obtain ⟨st', hrun, hinv⟩ := ih (h.turn heffect)
    refine ⟨st', ?_, ?_⟩
    · rw [matchTurns, List.foldlM_cons, hturn]
      exact hrun
    · rw [storedCandidates, hturn, Option.elim_some, ← List.append_assoc]
      exact hinv

/-- The matches that yield a line when memory is ample. -/
def candidates (file : SourceFile) (ms : List (QueryMatch file.text × Memory)) : List Candidate :=
  ms.filterMap fun m => candidate file m.1

/-- With ample memory the turns of some matches keep the best. -/
theorem BestInv.turns (ms : List (QueryMatch file.text × Memory)) :
    ∀ {L : List Candidate} {st : MatchState}, BestInv file old L st →
      (∀ m ∈ ms, m.2.Ample) → st.vec.items.length + ms.length ≤ maxCap →
      ∃ st', matchTurns file st ms = some st' ∧ storedCandidates file st ms = candidates file ms ∧
        BestInv file old (L ++ candidates file ms) st' := by
  induction ms with
  | nil =>
    intro L st h _ _
    exact ⟨st, rfl, rfl, by rwa [candidates, List.filterMap_nil, List.append_nil]⟩
  | cons m ms ih =>
    intro L st h hample hroom
    obtain ⟨mt, mem⟩ := m
    obtain ⟨hmem, hrest⟩ := List.forall_mem_cons.mp hample
    rw [List.length_cons] at hroom
    have hspace : st.vec.items.length ≤ maxCap := by omega
    obtain ⟨st₁, hturn, heffect⟩ := matchTurn_spec h.toSlotInv mt mem
    have hlen := heffect.length_le
    obtain ⟨st', hrun, hstored, hinv⟩ := ih (h.turn hmem hspace heffect) hrest (by omega)
    have hcons : candidates file ((mt, mem) :: ms)
        = (candidate file mt).toList ++ candidates file ms := by
      rw [candidates, List.filterMap_cons]
      cases candidate file mt <;> rfl
    refine ⟨st', ?_, ?_, ?_⟩
    · rw [matchTurns, List.foldlM_cons, hturn]
      exact hrun
    · rw [storedCandidates, hturn, Option.elim_some, hstored, hcons,
        storedCandidate_eq_candidate hmem hspace]
    · rw [hcons, ← List.append_assoc]
      exact hinv

theorem rangeInv_init (vec : LineVec BuiltLine) :
    RangeInv vec.items [] ⟨dedupInit, vec⟩ := by
  refine ⟨slotInv_init vec, rfl, ?_⟩
  rw [List.drop_length]
  rfl

variable (file) in
theorem bestInv_init (vec : LineVec BuiltLine) :
    BestInv file vec.items [] ⟨dedupInit, vec⟩ := by
  refine ⟨rangeInv_init vec, fun c hc => (by cases hc), ?_, fun e he => (by cases he)⟩
  rw [List.drop_length]
  rfl

theorem BestInv.items_eq (h : BestInv file old L st) :
    st.vec.items = old ++ (keptMatches L).map (builtLine file) := by
  rw [← h.built]
  exact (List.prefix_iff_eq_append.mp h.old_prefix).symm

/-- The slot claimed for a match is the end of the vector if the range is not remembered,
and otherwise the place of a line of the file. -/
theorem RangeInv.slot (h : RangeInv old L st) {m : MatchInfo} {pattern : ℕ} {seen : Dedup}
    {slot : ℕ}
    (hclaim : dedupClaim st.seen m.start m.stop pattern st.vec.items.length = some (seen, slot)) :
    (slot = st.vec.items.length ↔ (m.start, m.stop) ∉ trackedRanges L) ∧
      (slot ≠ st.vec.items.length → old.length ≤ slot ∧ slot < st.vec.items.length) := by
  rcases dedupClaim_cases st.seen m.start m.stop pattern st.vec.items.length with
    ⟨hnew, hnone⟩ | ⟨pre, e, post, hentries, hrange, ⟨-, hdrop⟩ | ⟨-, hraise⟩⟩
  · obtain ⟨-, rfl⟩ := Prod.ext_iff.mp (Option.some.inj (hclaim.symm.trans hnone))
    exact ⟨iff_of_true rfl (h.notMem_of_new hnew), fun hne => absurd rfl hne⟩
  · rw [hdrop] at hclaim
    cases hclaim
  · obtain ⟨-, rfl⟩ := Prod.ext_iff.mp (Option.some.inj (hclaim.symm.trans hraise))
    have he : e ∈ st.seen.entries := by simp [hentries]
    have hlt := h.idx_lt he
    have hmem : (m.start, m.stop) ∈ trackedRanges L := h.mem_iff.mpr ⟨e, he, hrange⟩
    exact ⟨iff_of_false hlt.ne fun hnot => hnot hmem, fun _ => ⟨(h.slots e he).1, hlt⟩⟩

end Turn

/-- **The match loop keeps the best match of each range it remembers**, if no allocation
fails, and none is refused for the size of the vector.  The lines of earlier files stay
in their places.  A range among the first `dedupCap` that get a line has one line, of
its best match and in the place of its first line; of any other range every match that
yields a line has its own, in order.  A slot claimed is the end of the vector exactly
when the range is not remembered, and otherwise the place of a line of this file. -/
theorem matchLoop_keeps_best (file : SourceFile) (vec : LineVec BuiltLine)
    (ms : List (QueryMatch file.text × Memory))
    (hample : ∀ m ∈ ms.take maxMatchesPerFile, m.2.Ample)
    (hroom : vec.items.length + maxMatchesPerFile ≤ maxCap) :
    (∃ st lines, matchLoop file 0 ⟨dedupInit, vec⟩ ms = some st ∧
      st.vec.items = vec.items ++ lines ∧
      lines.map BuiltLine.origin = keptMatches (candidates file (ms.take maxMatchesPerFile)) ∧
      (∀ line ∈ lines, line.str.bytes = lineText file.text line.origin.info file.path) ∧
      ∀ range, (lines.map BuiltLine.range).count range =
        if range ∈ trackedRanges (candidates file (ms.take maxMatchesPerFile)) then 1
        else ((candidates file (ms.take maxMatchesPerFile)).map Candidate.range).count range) ∧
    ∀ before mt mem after, ms.take maxMatchesPerFile = before ++ (mt, mem) :: after →
      ∃ st, matchTurns file ⟨dedupInit, vec⟩ before = some st ∧
        ∀ m seen slot, extractMatch file.text mt.captures = some m →
          dedupClaim st.seen m.start m.stop mt.patternIndex st.vec.items.length
            = some (seen, slot) →
          (slot = st.vec.items.length ↔
            (m.start, m.stop) ∉ trackedRanges (candidates file before)) ∧
          (slot ≠ st.vec.items.length →
            vec.items.length ≤ slot ∧ slot < st.vec.items.length) := by
  have hlen : (ms.take maxMatchesPerFile).length ≤ maxMatchesPerFile := List.length_take_le _ _
  constructor
  · obtain ⟨st, hrun, -, hinv⟩ := BestInv.turns (ms.take maxMatchesPerFile)
      (bestInv_init file vec) hample (by simp only; omega)
    rw [List.nil_append] at hinv
    refine ⟨st, (keptMatches (candidates file (ms.take maxMatchesPerFile))).map (builtLine file),
      ?_, hinv.items_eq, ?_, ?_, ?_⟩
    · rw [matchLoop_eq, Nat.sub_zero]
      exact hrun
    · rw [List.map_map]
      exact List.map_id _
    · intro line hline
      obtain ⟨c, hc, rfl⟩ := List.mem_map.mp hline
      exact builtLine_bytes file (hinv.named c (mem_of_mem_kept hc)).2
    · intro range
      rw [List.map_map]
      exact count_kept _ range
  · -- The slot is claimed in the state that the turns before the match have left.
    intro before mt mem after hsplit
    rw [hsplit] at hample hlen
    rw [List.length_append] at hlen
    obtain ⟨st, hrun, -, hinv⟩ := BestInv.turns before (bestInv_init file vec)
      (fun m hm => hample m (List.mem_append_left _ hm)) (by simp only; omega)
    rw [List.nil_append] at hinv
    exact ⟨st, hrun, fun m seen slot _ hclaim => hinv.toRangeInv.slot hclaim⟩

/-! ### A method of a class -/

/-- Memory that never runs out. -/
def Memory.plenty : Memory := ⟨Malloc.zeros, Malloc.zeros, true⟩

theorem Memory.plenty_ample : Memory.plenty.Ample := ⟨fun _ => rfl, fun _ => rfl, rfl⟩

/-- A class with a method, in Python. -/
def classText : Bytes := ascii "class C:\n def f(self):pass\n"

/-- The match of a name and the node of its definition. -/
def defMatch {text : Bytes} (patternIndex : ℕ) (kind : String) (start stop nodeStart nodeStop : ℕ)
    (h : CStr.lit kind ∈ captureNames ∧ start ≤ stop ∧ stop ≤ text.length ∧
      nodeStart ≤ nodeStop ∧ nodeStop ≤ text.length) : QueryMatch text where
  patternIndex := patternIndex
  captures := [⟨CStr.lit "name", start, stop⟩, ⟨CStr.lit kind, nodeStart, nodeStop⟩]
  ok cap hcap := by
    obtain ⟨hkind, hle, hstop, hnode, hnodeStop⟩ := h
    rw [List.mem_pair] at hcap
    rcases hcap with rfl | rfl
    · exact ⟨List.mem_cons_self .., hle, hstop⟩
    · exact ⟨hkind, hnode, hnodeStop⟩

/-- The file of the class. -/
def classFile : SourceFile := ⟨CStr.lit "c.py", classText, by decide, by decide⟩

/-- Every function definition is a match of the first pattern of the Python query. -/
def functionMatch : QueryMatch classFile.text := defMatch 0 "kind.function" 14 15 10 26 (by decide)

/-- In the body of a class it is one of the third as well. -/
def memberMatch : QueryMatch classFile.text := defMatch 2 "kind.member" 14 15 10 26 (by decide)

/-- The method's name gets one line. -/
theorem matchLoop_keeps_best_method : ∃ st lines, matchLoop classFile 0
    ⟨dedupInit, lineVecNew BuiltLine 128⟩
    [(functionMatch, Memory.plenty), (memberMatch, Memory.plenty)] = some st ∧
    st.vec.items = lines ∧ lines.map BuiltLine.range = [(14, 15)] := by
  obtain ⟨⟨st, lines, hrun, hitems, horigin, -, -⟩, -⟩ := matchLoop_keeps_best classFile
    (lineVecNew BuiltLine 128) [(functionMatch, Memory.plenty), (memberMatch, Memory.plenty)]
    (fun m hm => by
      rcases List.mem_pair.mp (List.mem_of_mem_take hm) with rfl | rfl <;>
        exact Memory.plenty_ample)
    (by decide)
  refine ⟨st, lines, hrun, hitems, ?_⟩
  have hranges := congrArg (List.map Candidate.range) horigin
  rw [List.map_map] at hranges
  exact hranges.trans (by decide)

end Tsag
