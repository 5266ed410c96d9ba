import Tsag.FileLines

/-!
# Matches that get no line

A match may survive the table and get no line: its name is not printable, an
allocation of `make_line` fails, or the vector does not grow.  For a range that has a
worse entry `dedup_claim` has raised the entry by then, and the line stays.

## Main definitions

* `LineFails` — the match gets no line.
* `NoWorseEntry` — no entry of its range is for a worse pattern.
* `EntriesOfLines` — the table has the patterns of the lines.

## Main results

* `MatchTurn.eq_iff_of_lineFails` — when a turn without a line leaves no trace.
* `PatternInv.turn` — which turns keep the patterns those of the lines.
* `matchLoop_failures_iff` — when a run keeps them.
* `matchTurn_raises_entry` — a turn that does not.
-/

namespace Tsag

section Turn

variable {file : SourceFile} {old : List BuiltLine} {st st' : MatchState}
  {mt : QueryMatch file.text} {mem : Memory}

variable (file) in
/-- `make_line` returns `NULL` for the match, or `line_vec_push` is called and returns 0. -/
def LineFails (st : MatchState) (mt : QueryMatch file.text) (mem : Memory) : Prop :=
  ∃ m, extractMatch file.text mt.captures = some m ∧
    (makeLine mem.pattern mem.line m file.text file.path = some none ∨
      ∃ line seen, makeLine mem.pattern mem.line m file.text file.path = some (some line) ∧
        dedupClaim st.seen m.start m.stop mt.patternIndex st.vec.items.length
          = some (seen, st.vec.items.length) ∧
        lineVecPush st.vec ⟨line, m, mt.patternIndex⟩ mem.realloc = none)

variable (file) in
/-- No entry of the range of the match is for a worse pattern. -/
def NoWorseEntry (st : MatchState) (mt : QueryMatch file.text) : Prop :=
  ∀ m, extractMatch file.text mt.captures = some m →
    ∀ e ∈ st.seen.entries, e.range = (m.start, m.stop) → mt.patternIndex ≤ e.pattern

/-- Every entry has the pattern of the line at its place, and `dedup_claim` drops a match
of its range exactly when that line is as good, and otherwise gives it the place. -/
def EntriesOfLines (st : MatchState) : Prop :=
  ∀ e ∈ st.seen.entries, ∃ line, st.vec.items[e.idx]? = some line ∧ line.range = e.range ∧
    line.origin.pattern = e.pattern ∧
    ∀ pattern, (dedupClaim st.seen e.start e.stop pattern st.vec.items.length).map Prod.snd
      = if pattern ≤ line.origin.pattern then none else some e.idx

/-! ### Turns without a line -/

theorem noWorseEntry_of_new {m : MatchInfo} (hm : extractMatch file.text mt.captures = some m)
    (hnew : ∀ e ∈ st.seen.entries, e.range ≠ (m.start, m.stop)) : NoWorseEntry file st mt := by
  intro m' hm' e he hrange
  obtain rfl := Option.some.inj (hm.symm.trans hm')
  exact absurd hrange (hnew e he)

/-- An entry of the range of the match is the only one. -/
theorem noWorseEntry_iff (h : SlotInv old st) {m : MatchInfo} {e : DedupEntry}
    (hm : extractMatch file.text mt.captures = some m) (he : e ∈ st.seen.entries)
    (hrange : e.range = (m.start, m.stop)) :
    NoWorseEntry file st mt ↔ mt.patternIndex ≤ e.pattern := by
  refine ⟨fun hno => hno m hm e he hrange, ?_⟩
  intro hle m' hm' e' he' hrange'
  obtain rfl := Option.some.inj (hm.symm.trans hm')
  obtain rfl := List.inj_on_of_nodup_map h.nodup he' he (hrange'.trans hrange.symm)
  exact hle

/-- A line that is built and has a place in the vector does not fail. -/
theorem not_lineFails_of_replaced (h : SlotInv old st) {m : MatchInfo} {line : CStr}
    {pre post : List DedupEntry} {e : DedupEntry}
    (hm : extractMatch file.text mt.captures = some m)
    (hentries : st.seen.entries = pre ++ e :: post) (hrange : e.range = (m.start, m.stop))
    (hline : makeLine mem.pattern mem.line m file.text file.path = some (some line)) :
    ¬ LineFails file st mt mem := by
  rintro ⟨m', hm', hnone | ⟨_, seen, -, hclaim, -⟩⟩
  · obtain rfl := Option.some.inj (hm.symm.trans hm')
    rw [hline] at hnone
    cases hnone
  · obtain rfl := Option.some.inj (hm.symm.trans hm')
    have he : e ∈ st.seen.entries := by simp [hentries]
    -- the slot claimed is the place of an entry, inside the vector
    rcases dedupClaim_cases st.seen m.start m.stop mt.patternIndex st.vec.items.length with
      ⟨hnew, -⟩ | ⟨pre', e', post', hentries', -, ⟨-, hdrop⟩ | ⟨-, hraise⟩⟩
    · exact hnew e he hrange
    · rw [hdrop] at hclaim
      cases hclaim
    · have hslot : e'.idx = st.vec.items.length :=
        congrArg Prod.snd (Option.some.inj (hraise.symm.trans hclaim))
      exact absurd hslot (h.idx_lt (by simp [hentries'])).ne

/-- **A turn without a line leaves no trace exactly when no entry of the range is for a
worse pattern.** -/
theorem MatchTurn.eq_iff_of_lineFails (h : SlotInv old st) (ht : MatchTurn file st mt mem st')
    (hfails : LineFails file st mt mem) : st' = st ↔ NoWorseEntry file st mt := by
  cases ht with
  | skipped hm =>
    obtain ⟨m, hm', -⟩ := hfails
    rw [hm] at hm'
    cases hm'
  | dropped hm hentries hrange hle =>
    exact iff_of_true rfl ((noWorseEntry_iff h hm (by simp [hentries]) hrange).mpr hle)
  | unbuilt hm hnew hline => exact iff_of_true rfl (noWorseEntry_of_new hm hnew)
  | unpushed hm hnew hline hpush => exact iff_of_true rfl (noWorseEntry_of_new hm hnew)
  | @pushed m line vec hm hnew hline hpush =>
    obtain ⟨m', hm', hnone | ⟨line', seen, hline', -, hpush'⟩⟩ := hfails
    · obtain rfl := Option.some.inj (hm.symm.trans hm')
      rw [hline] at hnone
      cases hnone
    · obtain rfl := Option.some.inj (hm.symm.trans hm')
      obtain rfl := Option.some.inj (Option.some.inj (hline.symm.trans hline'))
      rw [hpush] at hpush'
      cases hpush'
  | @raised m pre post e hm hentries hrange hlt hline =>
    apply iff_of_false
    · intro heq
      have hentries' := congrArg (fun st => st.seen.entries) heq
      simp only [hentries, List.append_cancel_left_eq, List.cons.injEq, and_true] at hentries'
      exact absurd (congrArg DedupEntry.pattern hentries') hlt.ne'
    · intro hno
      exact absurd ((noWorseEntry_iff h hm (by simp [hentries]) hrange).mp hno)
        (Nat.not_le.mpr hlt)
  | replaced hm hentries hrange hlt hline =>
    exact absurd hfails (not_lineFails_of_replaced h hm hentries hrange hline)

/-! ### The patterns of the lines -/

/-- The invariant of runs that leave no trace of a line that fails: the table has the
patterns of the lines. -/
structure PatternInv (old : List BuiltLine) (st : MatchState) : Prop extends SlotInv old st where
  patterns : ∀ e ∈ st.seen.entries, ∃ line, st.vec.items[e.idx]? = some line ∧
    line.range = e.range ∧ line.origin.pattern = e.pattern

/-- The slot claimed for a range that has an entry. -/
theorem SlotInv.claim_eq (h : SlotInv old st) {e : DedupEntry} (he : e ∈ st.seen.entries)
    (pattern vecLen : ℕ) : (dedupClaim st.seen e.start e.stop pattern vecLen).map Prod.snd
      = if pattern ≤ e.pattern then none else some e.idx := by
  rcases dedupClaim_cases st.seen e.start e.stop pattern vecLen with
    ⟨hnew, -⟩ | ⟨pre, e', post, hentries, hrange, hclaim⟩
  · exact absurd rfl (hnew e he)
  · have he' : e' = e :=
      List.inj_on_of_nodup_map h.nodup (by simp [hentries]) he hrange
    subst he'
    rcases hclaim with ⟨hle, hdrop⟩ | ⟨hlt, hraise⟩
    · rw [hdrop, if_pos hle]
      rfl
    · rw [hraise, if_neg (Nat.not_le.mpr hlt)]
      rfl

theorem PatternInv.entriesOfLines (h : PatternInv old st) : EntriesOfLines st := by
  intro e he
  obtain ⟨line, hget, hrange, hpattern⟩ := h.patterns e he
  refine ⟨line, hget, hrange, hpattern, ?_⟩
  intro pattern
  rw [hpattern]
  exact h.claim_eq he pattern _

/-- **A turn keeps the patterns those of the lines**, if no line fails for a range that
has a worse entry. -/
theorem PatternInv.turn (h : PatternInv old st) (ht : MatchTurn file st mt mem st')
    (hok : LineFails file st mt mem → NoWorseEntry file st mt) : PatternInv old st' := by
  refine ⟨h.toSlotInv.turn ht, ?_⟩
  cases ht with
  | skipped _ => exact h.patterns
  | dropped _ _ _ _ => exact h.patterns
  | unbuilt _ _ _ => exact h.patterns
  | unpushed _ _ _ _ => exact h.patterns
  | @pushed m line vec hm hnew hline hpush =>
    refine forall_mem_dedupTrack ?_ fun _ => ⟨_, getElem?_push_self hpush, rfl, rfl⟩
    intro e he
    rw [h.getElem?_push he hpush]
    exact h.patterns e he
  | @raised m pre post e hm hentries hrange hlt hline =>
    have hno := hok ⟨m, hm, Or.inl hline⟩ m hm e (by simp [hentries]) hrange
    exact absurd hno (Nat.not_le.mpr hlt)
  | @replaced m line pre post e hm hentries hrange hlt hline =>
    have he : e ∈ st.seen.entries := by simp [hentries]
    have hnodup := h.nodup
    rw [hentries] at hnodup
    refine forall_mem_middle
      ⟨⟨line, m, mt.patternIndex⟩, List.getElem?_set_self (h.idx_lt he), hrange.symm, rfl⟩ ?_
    intro x hx
    have hmem : x ∈ st.seen.entries := hentries ▸ mem_middle_of_mem hx
    rw [List.getElem?_set_ne (h.idx_ne he hmem (range_ne_of_nodup hnodup x hx))]
    exact h.patterns x hmem

end Turn

/-! ### Runs -/

theorem matchTurns_snoc (file : SourceFile) (st : MatchState)
    (before : List (QueryMatch file.text × Memory)) (m : QueryMatch file.text × Memory) :
    matchTurns file st (before ++ [m])
      = (matchTurns file st before).bind fun st => matchTurn file st m.1 m.2 := by
  simp [matchTurns]

/-- The turns of some matches keep the patterns those of the lines, if in none of them a
line fails for a range that has a worse entry. -/
theorem PatternInv.turns {file : SourceFile} {old : List BuiltLine} {init : MatchState}
    {ms : List (QueryMatch file.text × Memory)} (h : PatternInv old init)
    (hok : ∀ before mt mem after, ms = before ++ (mt, mem) :: after →
      ∀ st, matchTurns file init before = some st → LineFails file st mt mem →
        NoWorseEntry file st mt)
    (before : List (QueryMatch file.text × Memory)) :
    ∀ after, ms = before ++ after →
      ∃ st, matchTurns file init before = some st ∧ PatternInv old st := by
  induction before using List.reverseRecOn with
  | nil => exact fun _ _ => ⟨init, rfl, h⟩
  | append_singleton before m ih =>
    intro after hsplit
    rw [List.append_assoc, List.singleton_append] at hsplit
    obtain ⟨st, hrun, hinv⟩ := ih (m :: after) hsplit
    obtain ⟨st', hturn, heffect⟩ := matchTurn_spec hinv.toSlotInv m.1 m.2
    refine ⟨st', ?_, hinv.turn heffect (hok before m.1 m.2 after hsplit st hrun)⟩
    rw [matchTurns_snoc, hrun, Option.bind_some]
    exact hturn

theorem patternInv_init (vec : LineVec BuiltLine) : PatternInv vec.items ⟨dedupInit, vec⟩ :=
  ⟨slotInv_init vec, fun e he => by cases he⟩

/-- **A line that fails leaves no trace exactly when no entry of its range is for a worse
pattern**, in every turn of a run.  The table has the patterns of the lines in a run,
and lines that fail leave no trace in it, exactly when none fails for a range that has
a worse entry. -/
theorem matchLoop_failures_iff (file : SourceFile) (vec : LineVec BuiltLine)
    (ms : List (QueryMatch file.text × Memory)) :
    (∀ before mt mem after, ms.take maxMatchesPerFile = before ++ (mt, mem) :: after →
      ∃ st st', matchTurns file ⟨dedupInit, vec⟩ before = some st ∧
        matchTurn file st mt mem = some st' ∧
        (LineFails file st mt mem → (st' = st ↔ NoWorseEntry file st mt))) ∧
    ((∀ before mt mem after, ms.take maxMatchesPerFile = before ++ (mt, mem) :: after →
      ∃ st st', matchTurns file ⟨dedupInit, vec⟩ before = some st ∧
        matchTurn file st mt mem = some st' ∧
        (LineFails file st mt mem → st' = st) ∧ EntriesOfLines st ∧ EntriesOfLines st') ↔
    ∀ before mt mem after, ms.take maxMatchesPerFile = before ++ (mt, mem) :: after →
      ∀ st, matchTurns file ⟨dedupInit, vec⟩ before = some st → LineFails file st mt mem →
        NoWorseEntry file st mt) := by
  have hstep : ∀ before mt mem, ∃ st st',
      matchTurns file ⟨dedupInit, vec⟩ before = some st ∧
      matchTurn file st mt mem = some st' ∧
      (LineFails file st mt mem → (st' = st ↔ NoWorseEntry file st mt)) := by
    intro before mt mem
    obtain ⟨st, hrun, hinv⟩ := RangeInv.turns before (rangeInv_init vec)
    obtain ⟨st', hturn, heffect⟩ := matchTurn_spec hinv.toSlotInv mt mem
    exact ⟨st, st', hrun, hturn, heffect.eq_iff_of_lineFails hinv.toSlotInv⟩
  -- what holds of a turn in the state it is in holds along the run
  refine ⟨fun before mt mem _ _ => hstep before mt mem, ?_, ?_⟩
  · -- the state before a turn is determined by the turns before it
    intro h before mt mem after hsplit st hrun hfails
    obtain ⟨st₁, st', hrun₁, hturn, htrace, -, -⟩ := h before mt mem after hsplit
    obtain rfl := Option.some.inj (hrun.symm.trans hrun₁)
    obtain ⟨st₂, st₃, hrun₂, hturn₂, hiff⟩ := hstep before mt mem
    obtain rfl := Option.some.inj (hrun.symm.trans hrun₂)
    obtain rfl := Option.some.inj (hturn.symm.trans hturn₂)
    exact (hiff hfails).mp (htrace hfails)
  · -- no failure has left a trace so far, so the patterns are those of the lines
    intro hok before mt mem after hsplit
    obtain ⟨st, hrun, hinv⟩ := (patternInv_init vec).turns hok before _ hsplit
    obtain ⟨st', hturn, heffect⟩ := matchTurn_spec hinv.toSlotInv mt mem
    have hnow := hok before mt mem after hsplit st hrun
    exact ⟨st, st', hrun, hturn,
      fun hfails => (heffect.eq_iff_of_lineFails hinv.toSlotInv hfails).mpr (hnow hfails),
      hinv.entriesOfLines, (hinv.turn heffect hnow).entriesOfLines⟩

/-! ### A method without memory -/

/-- Memory with nothing left for the pattern of a line. -/
def Memory.starved : Memory := ⟨⟨fun _ => none, by simp⟩, Malloc.zeros, true⟩

/-- The line of a function, and the entry of its name. -/
theorem functionMatch_turn : ∃ st, matchTurns classFile ⟨dedupInit, lineVecNew BuiltLine 128⟩
    [(functionMatch, Memory.plenty)] = some st ∧ st.seen = ⟨[⟨14, 15, 0, 0⟩]⟩ ∧
    st.vec.items.map (fun line => line.origin.pattern) = [0] := by
  have hturn : (matchTurns classFile ⟨dedupInit, lineVecNew BuiltLine 128⟩
      [(functionMatch, Memory.plenty)]).map
        (fun st => (st.seen, st.vec.items.map fun line => line.origin.pattern))
      = some (⟨[⟨14, 15, 0, 0⟩]⟩, [0]) := by decide +kernel
  obtain ⟨st, hst, heq⟩ := Option.map_eq_some_iff.mp hturn
  exact ⟨st, hst, Prod.ext_iff.mp heq⟩

/-- Without memory for its line as a member, the entry is a member's and the line is the
function's. -/
theorem matchTurn_raises_entry : ∃ st st',
    matchTurns classFile ⟨dedupInit, lineVecNew BuiltLine 128⟩ [(functionMatch, Memory.plenty)]
      = some st ∧
    LineFails classFile st memberMatch Memory.starved ∧
    matchTurn classFile st memberMatch Memory.starved = some st' ∧
    st' ≠ st ∧ ¬ EntriesOfLines st' := by
  obtain ⟨st, hrun, hseen, hitems⟩ := functionMatch_turn
  have hm : extractMatch classFile.text memberMatch.captures
      = some ⟨ascii "f", CStr.lit "member", 14, 15⟩ := rfl
  have hline : makeLine Memory.starved.pattern Memory.starved.line
      ⟨ascii "f", CStr.lit "member", 14, 15⟩ classFile.text classFile.path = some none := by
    decide +kernel
  have hclaim : dedupClaim st.seen 14 15 memberMatch.patternIndex st.vec.items.length
      = some (⟨[⟨14, 15, 2, 0⟩]⟩, 0) := by
    rw [hseen]
    rfl
  have hturn : matchTurn classFile st memberMatch Memory.starved
      = some ⟨⟨[⟨14, 15, 2, 0⟩]⟩, st.vec⟩ := by
    unfold matchTurn
    simp only [hm, hclaim, hline, Option.bind_eq_bind, Option.bind_some]
    rfl
  refine ⟨st, _, hrun, ⟨_, hm, Or.inl hline⟩, hturn, ?_, ?_⟩
  · intro heq
    have hentries : (⟨[⟨14, 15, 2, 0⟩]⟩ : Dedup) = ⟨[⟨14, 15, 0, 0⟩]⟩ :=
      (congrArg MatchState.seen heq).trans hseen
    exact absurd hentries (by decide)
  · intro hlines
    obtain ⟨line, hget, -, hpattern, -⟩ := hlines ⟨14, 15, 2, 0⟩ (List.mem_singleton.mpr rfl)
    have hzero := congrArg (fun patterns => patterns[0]?) hitems
    simp only [List.getElem?_map, hget, Option.map_some, hpattern] at hzero
    exact absurd hzero (by decide)

end Tsag
