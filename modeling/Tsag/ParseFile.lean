import Tsag.Dedup
import Tsag.Lib.FirstKeys
import Tsag.LineVec
import Tsag.MakeLine

/-!
# The matches of a file

`parse_file_lines` goes through the matches of a file's query.  A match that has a
name and survives the table of ranges gets a line, which is pushed to the worker's
vector or replaces the line its range has got before.  Allocations may fail in every
turn.

## Main definitions

* `SourceFile`, `QueryMatch`, `Memory` — what a turn is given.
* `matchTurn`, `matchLoop` — one turn of the loop, and the loop.
* `MatchTurn` — everything a turn does.
* `SlotInv` — the invariant of the table and the vector.

## Main results

* `matchTurn_spec` — a turn ends, and does one of these things.
* `matchLoop_eq` — the loop takes the turns of the first `maxMatchesPerFile` matches.
-/

namespace Tsag

/-- `MAX_MATCHES_PER_FILE`. -/
def maxMatchesPerFile : ℕ := 4096

/-- `PATH_MAX`: `open` takes no path of this length. -/
def pathMax : ℕ := 4096

/-- A file that `read_file` has read. -/
structure SourceFile where
  path : CStr
  text : Bytes
  path_lt : path.bytes.length < pathMax
  size_le : text.length ≤ maxFileSize

/-- `TSQueryMatch`, in a text. -/
structure QueryMatch (text : Bytes) where
  patternIndex : ℕ
  captures : List Capture
  ok : ∀ cap ∈ captures, cap.Ok text

/-- What the allocations of a turn come to: the two of `make_line`, and the one of
`line_vec_push`. -/
structure Memory where
  pattern : Malloc
  line : Malloc
  realloc : Bool

/-- No allocation fails. -/
structure Memory.Ample (mem : Memory) : Prop where
  pattern : ∀ n, (mem.pattern.alloc n).isSome
  line : ∀ n, (mem.line.alloc n).isSome
  realloc : mem.realloc = true

/-- A match that has a name and a kind, with its `pattern_index`. -/
structure Candidate where
  info : MatchInfo
  pattern : ℕ

/-- The byte range of the name. -/
def Candidate.range (c : Candidate) : ℕ × ℕ := (c.info.start, c.info.stop)

/-- A line of the vector, with the match it was built from. -/
structure BuiltLine where
  str : CStr
  origin : Candidate

/-- The byte range of the name in the line. -/
def BuiltLine.range (line : BuiltLine) : ℕ × ℕ := line.origin.range

/-- `seen` and `vec`. -/
structure MatchState where
  seen : Dedup
  vec : LineVec BuiltLine

/-- One turn of the loop of `parse_file_lines`; `none` where it would leave an array. -/
def matchTurn (file : SourceFile) (st : MatchState) (mt : QueryMatch file.text) (mem : Memory) :
    Option MatchState :=
  match extractMatch file.text mt.captures with
  | none => some st
  | some m =>
      match dedupClaim st.seen m.start m.stop mt.patternIndex st.vec.items.length with
      | none => some st
      | some (seen, slot) => do
          match ← makeLine mem.pattern mem.line m file.text file.path with
          | none => return ⟨seen, st.vec⟩
          | some line =>
              let built : BuiltLine := ⟨line, m, mt.patternIndex⟩
              if slot = st.vec.items.length then
                let idx := st.vec.items.length
                match lineVecPush st.vec built mem.realloc with
                | none => return ⟨seen, st.vec⟩
                | some vec => return ⟨dedupTrack seen m.start m.stop mt.patternIndex idx, vec⟩
              else
                let vec ← lineVecReplace st.vec slot built
                return ⟨seen, vec⟩

/-- The loop of `parse_file_lines`, after `examined` matches. -/
def matchLoop (file : SourceFile) : ℕ → MatchState → List (QueryMatch file.text × Memory) →
    Option MatchState
  | _, st, [] => some st
  | examined, st, (mt, mem) :: rest =>
      if examined + 1 > maxMatchesPerFile then some st
      else do
        let st ← matchTurn file st mt mem
        matchLoop file (examined + 1) st rest

/-- The turns of some matches, one after the other. -/
def matchTurns (file : SourceFile) (st : MatchState) (ms : List (QueryMatch file.text × Memory)) :
    Option MatchState :=
  ms.foldlM (fun st m => matchTurn file st m.1 m.2) st

/-- The loop takes the turns of as many matches as it may examine. -/
theorem matchLoop_eq (file : SourceFile) (ms : List (QueryMatch file.text × Memory)) :
    ∀ (examined : ℕ) (st : MatchState), matchLoop file examined st ms
      = matchTurns file st (ms.take (maxMatchesPerFile - examined)) := by
  induction ms with
  | nil =>
    intro examined st
    rw [matchLoop, List.take_nil]
    rfl
  | cons m ms ih =>
    intro examined st
    obtain ⟨mt, mem⟩ := m
    rw [matchLoop]
    split
    · next hcap =>
      rw [Nat.sub_eq_zero_of_le (by omega), List.take_zero]
      rfl
    · next hcap =>
      obtain ⟨left, hleft⟩ : ∃ left, maxMatchesPerFile - examined = left + 1 :=
        Nat.exists_eq_succ_of_ne_zero (by omega)
      have hrest : maxMatchesPerFile - (examined + 1) = left := by omega
      rw [hleft, List.take_succ_cons]
      simp only [ih, hrest]
      rfl

/-! ### What a turn does -/

/-- Everything a turn does to the table and the vector. -/
inductive MatchTurn (file : SourceFile) (st : MatchState) (mt : QueryMatch file.text)
    (mem : Memory) : MatchState → Prop
  /-- No name, or no kind. -/
  | skipped (hm : extractMatch file.text mt.captures = none) : MatchTurn file st mt mem st
  /-- The range has an entry that is as good. -/
  | dropped {m : MatchInfo} {pre post : List DedupEntry} {e : DedupEntry}
      (hm : extractMatch file.text mt.captures = some m)
      (hentries : st.seen.entries = pre ++ e :: post) (hrange : e.range = (m.start, m.stop))
      (hle : mt.patternIndex ≤ e.pattern) : MatchTurn file st mt mem st
  /-- A range without an entry gets no line. -/
  | unbuilt {m : MatchInfo} (hm : extractMatch file.text mt.captures = some m)
      (hnew : ∀ e ∈ st.seen.entries, e.range ≠ (m.start, m.stop))
      (hline : makeLine mem.pattern mem.line m file.text file.path = some none) :
      MatchTurn file st mt mem st
  /-- Its line finds no room in the vector. -/
  | unpushed {m : MatchInfo} {line : CStr} (hm : extractMatch file.text mt.captures = some m)
      (hnew : ∀ e ∈ st.seen.entries, e.range ≠ (m.start, m.stop))
      (hline : makeLine mem.pattern mem.line m file.text file.path = some (some line))
      (hpush : lineVecPush st.vec ⟨line, m, mt.patternIndex⟩ mem.realloc = none) :
      MatchTurn file st mt mem st
  /-- Its line is pushed, and tracked if there is room in the table. -/
  | pushed {m : MatchInfo} {line : CStr} {vec : LineVec BuiltLine}
      (hm : extractMatch file.text mt.captures = some m)
      (hnew : ∀ e ∈ st.seen.entries, e.range ≠ (m.start, m.stop))
      (hline : makeLine mem.pattern mem.line m file.text file.path = some (some line))
      (hpush : lineVecPush st.vec ⟨line, m, mt.patternIndex⟩ mem.realloc = some vec) :
      MatchTurn file st mt mem
        ⟨dedupTrack st.seen m.start m.stop mt.patternIndex st.vec.items.length, vec⟩
  /-- The range has a worse entry, which is raised, but no line is built. -/
  | raised {m : MatchInfo} {pre post : List DedupEntry} {e : DedupEntry}
      (hm : extractMatch file.text mt.captures = some m)
      (hentries : st.seen.entries = pre ++ e :: post) (hrange : e.range = (m.start, m.stop))
      (hlt : e.pattern < mt.patternIndex)
      (hline : makeLine mem.pattern mem.line m file.text file.path = some none) :
      MatchTurn file st mt mem ⟨⟨pre ++ { e with pattern := mt.patternIndex } :: post⟩, st.vec⟩
  /-- The range has a worse entry, and the line replaces the one it has. -/
  | replaced {m : MatchInfo} {line : CStr} {pre post : List DedupEntry} {e : DedupEntry}
      (hm : extractMatch file.text mt.captures = some m)
      (hentries : st.seen.entries = pre ++ e :: post) (hrange : e.range = (m.start, m.stop))
      (hlt : e.pattern < mt.patternIndex)
      (hline : makeLine mem.pattern mem.line m file.text file.path = some (some line)) :
      MatchTurn file st mt mem ⟨⟨pre ++ { e with pattern := mt.patternIndex } :: post⟩,
        { st.vec with items := st.vec.items.set e.idx ⟨line, m, mt.patternIndex⟩ }⟩

/-- The invariant of the table and the vector: the lines that were there before the file
are in their places, every entry knows the place of a line of its range, and no range
has two entries. -/
structure SlotInv (old : List BuiltLine) (st : MatchState) : Prop where
  old_prefix : old <+: st.vec.items
  slots : ∀ e ∈ st.seen.entries, old.length ≤ e.idx ∧
    ∃ line, st.vec.items[e.idx]? = some line ∧ line.range = e.range
  nodup : (st.seen.entries.map DedupEntry.range).Nodup

section Turn

variable {file : SourceFile} {old : List BuiltLine} {st st' : MatchState}
  {mt : QueryMatch file.text} {mem : Memory}

theorem SlotInv.idx_lt (h : SlotInv old st) {e : DedupEntry} (he : e ∈ st.seen.entries) :
    e.idx < st.vec.items.length := by
  obtain ⟨-, line, hline, -⟩ := h.slots e he
  exact (List.getElem?_eq_some_iff.mp hline).1

/-- Entries of different ranges have different places. -/
theorem SlotInv.idx_ne (h : SlotInv old st) {e x : DedupEntry} (he : e ∈ st.seen.entries)
    (hx : x ∈ st.seen.entries) (hne : x.range ≠ e.range) : e.idx ≠ x.idx := by
  intro heq
  obtain ⟨-, line, hget, hrange⟩ := h.slots e he
  obtain ⟨-, line', hget', hrange'⟩ := h.slots x hx
  rw [heq, hget'] at hget
  obtain rfl := Option.some.inj hget
  exact hne (hrange'.symm.trans hrange)

/-- A push leaves the lines of the table in their places. -/
theorem SlotInv.getElem?_push (h : SlotInv old st) {e : DedupEntry} (he : e ∈ st.seen.entries)
    {line : BuiltLine} {room : Bool} {vec : LineVec BuiltLine}
    (hpush : lineVecPush st.vec line room = some vec) :
    vec.items[e.idx]? = st.vec.items[e.idx]? := by
  rw [lineVecPush_items hpush, List.getElem?_append_left (h.idx_lt he)]

theorem getElem?_push_self {line : BuiltLine} {room : Bool} {vec vec' : LineVec BuiltLine}
    (hpush : lineVecPush vec line room = some vec') :
    vec'.items[vec.items.length]? = some line := by
  rw [lineVecPush_items hpush, List.getElem?_append_right le_rfl, Nat.sub_self]
  rfl

theorem QueryMatch.valid {m : MatchInfo} (hm : extractMatch file.text mt.captures = some m) :
    m.Valid file.text :=
  extractMatch_valid ⟨mt.captures, mt.ok, hm⟩

/-- `make_line` stays inside the text. -/
theorem exists_makeLine (mem : Memory) {m : MatchInfo}
    (hm : extractMatch file.text mt.captures = some m) :
    ∃ r, makeLine mem.pattern mem.line m file.text file.path = some r := by
  by_cases h : MakesLine mem.pattern mem.line m file.text file.path
  · obtain ⟨line, hline, -⟩ := makeLine_of_makesLine (QueryMatch.valid hm) file.size_le h
    exact ⟨some line, hline⟩
  · exact ⟨none, makeLine_of_not_makesLine (QueryMatch.valid hm) file.size_le h⟩

/-- **A turn stays inside the arrays**, and does one of the things it may do. -/
theorem matchTurn_spec (h : SlotInv old st) (mt : QueryMatch file.text) (mem : Memory) :
    ∃ st', matchTurn file st mt mem = some st' ∧ MatchTurn file st mt mem st' := by
  unfold matchTurn
  cases hm : extractMatch file.text mt.captures with
  | none => exact ⟨st, rfl, .skipped hm⟩
  | some m =>
    obtain ⟨r, hline⟩ := exists_makeLine mem hm
    rcases dedupClaim_cases st.seen m.start m.stop mt.patternIndex st.vec.items.length with
      ⟨hnew, hclaim⟩ | ⟨pre, e, post, hentries, hrange, ⟨hle, hclaim⟩ | ⟨hlt, hclaim⟩⟩
    · simp only [hclaim, hline, Option.bind_eq_bind, Option.bind_some]
      cases r with
      | none => exact ⟨st, rfl, .unbuilt hm hnew hline⟩
      | some line =>
        simp only [if_true]
        cases hpush : lineVecPush st.vec ⟨line, m, mt.patternIndex⟩ mem.realloc with
        | none => exact ⟨st, rfl, .unpushed hm hnew hline hpush⟩
        | some vec => exact ⟨_, rfl, .pushed hm hnew hline hpush⟩
    · simp only [hclaim]
      exact ⟨st, rfl, .dropped hm hentries hrange hle⟩
    · have hidx : e.idx < st.vec.items.length := h.idx_lt (by simp [hentries])
      simp only [hclaim, hline, Option.bind_eq_bind, Option.bind_some]
      cases r with
      | none => exact ⟨_, rfl, .raised hm hentries hrange hlt hline⟩
      | some line =>
        simp only [if_neg hidx.ne, lineVecReplace, if_pos hidx, Option.bind_some]
        exact ⟨_, rfl, .replaced hm hentries hrange hlt hline⟩

/-- What holds of an entry and of the others holds of every entry. -/
theorem forall_mem_middle {pre post : List DedupEntry} {e : DedupEntry} {P : DedupEntry → Prop}
    (he : P e) (h : ∀ x ∈ pre ++ post, P x) : ∀ x ∈ pre ++ e :: post, P x := by
  intro x hx
  rcases List.mem_cons.mp (List.perm_middle.subset hx) with rfl | hx
  · exact he
  · exact h x hx

theorem mem_middle_of_mem {pre post : List DedupEntry} {e x : DedupEntry} (hx : x ∈ pre ++ post) :
    x ∈ pre ++ e :: post :=
  List.perm_middle.symm.subset (List.mem_cons_of_mem _ hx)

/-- Raising the pattern of an entry changes no range. -/
theorem map_range_raise (pre post : List DedupEntry) (e : DedupEntry) (pattern : ℕ) :
    (pre ++ { e with pattern } :: post).map DedupEntry.range
      = (pre ++ e :: post).map DedupEntry.range := by
  simp [DedupEntry.range]

/-- No other entry has the range of the one raised. -/
theorem range_ne_of_nodup {pre post : List DedupEntry} {e : DedupEntry}
    (h : ((pre ++ e :: post).map DedupEntry.range).Nodup) :
    ∀ x ∈ pre ++ post, x.range ≠ e.range := by
  rw [List.map_append, List.map_cons, List.nodup_middle, ← List.map_append, List.nodup_cons] at h
  intro x hx heq
  exact h.1 (heq ▸ List.mem_map_of_mem hx)

/-- A turn keeps the invariant. -/
theorem SlotInv.turn (h : SlotInv old st) (ht : MatchTurn file st mt mem st') :
    SlotInv old st' := by
  cases ht with
  | skipped _ => exact h
  | dropped _ _ _ _ => exact h
  | unbuilt _ _ _ => exact h
  | unpushed _ _ _ _ => exact h
  | @pushed m line vec hm hnew hline hpush =>
    -- The new line is past those of the entries, which keep their slots.
    have hitems := lineVecPush_items hpush
    refine ⟨?_, forall_mem_dedupTrack ?_ ?_, ?_⟩
    · rw [hitems]
      exact h.old_prefix.trans (List.prefix_append _ _)
    · intro e he
      rw [h.getElem?_push he hpush]
      exact h.slots e he
    · intro _
      exact ⟨h.old_prefix.length_le, _, getElem?_push_self hpush, rfl⟩
    · rw [dedupTrack_ranges]
      -- the entry is kept while there is room for it
      split
      · refine List.nodup_append.mpr ⟨h.nodup, List.nodup_singleton _, ?_⟩
        intro r hr r' hr'
        obtain ⟨e, he, rfl⟩ := List.mem_map.mp hr
        rw [List.mem_singleton.mp hr']
        exact hnew e he
      · exact h.nodup
  | @raised m pre post e hm hentries hrange hlt hline =>
    have hnodup := h.nodup
    rw [hentries] at hnodup
    have he := h.slots e (by simp [hentries])
    refine ⟨h.old_prefix, forall_mem_middle he ?_, ?_⟩
    · intro x hx
      exact h.slots x (hentries ▸ mem_middle_of_mem hx)
    · rw [map_range_raise]
      exact hnodup
  | @replaced m line pre post e hm hentries hrange hlt hline =>
    -- The slot of the entry gets the line, and no other entry has the slot.
    have he : e ∈ st.seen.entries := by simp [hentries]
    have hle := (h.slots e he).1
    have hnodup := h.nodup
    rw [hentries] at hnodup
    refine ⟨?_, forall_mem_middle ⟨hle, ⟨line, m, mt.patternIndex⟩, ?_, hrange.symm⟩ ?_, ?_⟩
    · obtain ⟨lines, hlines⟩ := h.old_prefix
      rw [← hlines, List.set_append_right _ _ hle]
      exact List.prefix_append _ _
    · exact List.getElem?_set_self (h.idx_lt he)
    · intro x hx
      have hmem : x ∈ st.seen.entries := hentries ▸ mem_middle_of_mem hx
      rw [List.getElem?_set_ne (h.idx_ne he hmem (range_ne_of_nodup hnodup x hx))]
      exact h.slots x hmem
    · rw [map_range_raise]
      exact hnodup

theorem slotInv_init (vec : LineVec BuiltLine) : SlotInv vec.items ⟨dedupInit, vec⟩ :=
  ⟨List.prefix_rfl, by simp [dedupInit], List.nodup_nil⟩

end Turn

end Tsag
