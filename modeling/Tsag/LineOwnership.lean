import Tsag.FileLines
import Tsag.Lib.Own

/-!
# The blocks of the lines

A line is a block of memory, and a line vector two blocks and those of its lines.  These
are the functions on lines and vectors once more, with every block they acquire, touch
and release, and every allocation that may fail.

## Main definitions

* `Res` — what has to be given back.
* `LinePtr`, `VecPtr` — a line and a vector, with the blocks they lie in.
* `Owned.lineVecPush`, `Owned.makeLine`, `Owned.matchTurn`, … — the functions.

## Main results

* `Owned.wp_lineVecPush`, `Owned.wp_lineVecReplace`, `Owned.wp_lineVecUniq`,
  `Owned.wp_lineVecFree` — what becomes of the blocks of a vector.
* `Owned.wp_makeLine` — `make_line` leaves the block of its line and no other.
* `Owned.wp_matchTurn`, `Owned.wp_matchLoop` — the loop keeps every line in its vector,
  or releases it.
-/

namespace Tsag

/-- What has to be given back. -/
inductive Res
  /-- From `malloc`, `calloc`, `realloc` or `strdup`, to `free`. -/
  | mem
  /-- From `open` to `close`. -/
  | fd
  /-- From `fopen` or `fdopen` to `fclose`. -/
  | file
  /-- From `opendir` to `closedir`. -/
  | dir
  /-- From `ts_parser_parse_string` to `ts_tree_delete`. -/
  | tree
  /-- From `ts_parser_new` to `ts_parser_delete`. -/
  | parser
  /-- From `ts_query_cursor_new` to `ts_query_cursor_delete`. -/
  | cursor
  /-- From `ts_query_new` to `ts_query_delete`. -/
  | query
  /-- From `dlopen` to `dlclose`. -/
  | dl
  /-- From `pthread_mutex_init` to `pthread_mutex_destroy`. -/
  | mutex
  /-- From `pthread_cond_init` to `pthread_cond_destroy`. -/
  | cond
  deriving DecidableEq, Repr

/-- Blocks, each with what it is. -/
abbrev Owns := Multiset (Res × ℕ)

/-- A function that acquires and releases blocks. -/
abbrev Code := Own Res

/-- A line of a vector: a `char*`, and the line there. -/
structure LinePtr where
  addr : ℕ
  line : BuiltLine

/-- The string at the pointer. -/
def LinePtr.str (p : LinePtr) : CStr := p.line.str

/-- The blocks of lines. -/
def lineBlocks (lines : List LinePtr) : Owns := Own.blocksOf .mem (lines.map LinePtr.addr)

@[simp] theorem lineBlocks_nil : lineBlocks [] = 0 := rfl

@[simp] theorem lineBlocks_cons (p : LinePtr) (lines : List LinePtr) :
    lineBlocks (p :: lines) = {(.mem, p.addr)} + lineBlocks lines := by
  rw [lineBlocks, List.map_cons, Own.blocksOf_cons]
  rfl

@[simp] theorem lineBlocks_append (lines lines' : List LinePtr) :
    lineBlocks (lines ++ lines') = lineBlocks lines + lineBlocks lines' := by
  rw [lineBlocks, List.map_append, Own.blocksOf_append]
  rfl

theorem lineBlocks_perm {lines lines' : List LinePtr} (h : lines.Perm lines') :
    lineBlocks lines = lineBlocks lines' := Own.blocksOf_perm _ (h.map _)

/-- The block of one line, and those of the others. -/
theorem lineBlocks_eraseIdx {lines : List LinePtr} {i : ℕ} {p : LinePtr}
    (h : lines[i]? = some p) :
    lineBlocks lines = {(.mem, p.addr)} + lineBlocks (lines.eraseIdx i) := by
  obtain ⟨hi, rfl⟩ := List.getElem?_eq_some_iff.mp h
  rw [← lineBlocks_perm (List.getElem_cons_eraseIdx_perm hi), lineBlocks_cons]

theorem mem_lineBlocks {p : LinePtr} {lines : List LinePtr} (h : p ∈ lines) :
    (Res.mem, p.addr) ∈ lineBlocks lines := Own.mem_blocksOf (List.mem_map_of_mem h)

/-- A `LineVec*`: the block of the struct, that of `items`, and the vector. -/
structure VecPtr where
  self : ℕ
  items : ℕ
  vec : LineVec LinePtr

namespace VecPtr

/-- The two blocks of the vector itself. -/
def frame (v : VecPtr) : Owns := {(.mem, v.self)} + {(.mem, v.items)}

/-- The blocks of the vector and of its lines. -/
def owned (v : VecPtr) : Owns := v.frame + lineBlocks v.vec.items

/-- The vector, its lines without their blocks. -/
def value (v : VecPtr) : LineVec BuiltLine := ⟨v.vec.items.map LinePtr.line, v.vec.cap⟩

theorem mem_self (v : VecPtr) : (Res.mem, v.self) ∈ v.owned := by simp [owned, frame]

theorem mem_items (v : VecPtr) : (Res.mem, v.items) ∈ v.owned := by simp [owned, frame]

theorem length_value (v : VecPtr) : v.value.items.length = v.vec.items.length :=
  List.length_map _

end VecPtr

namespace Owned

open Own

/-! ### Vectors -/

/-- `line_vec_new`; the flags are whether its two allocations succeed. -/
def lineVecNew (structOk itemsOk : Bool) (cap : ℕ) : Code (Option VecPtr) :=
  if structOk then do
    let self ← acquire .mem
    if itemsOk then
      let items ← acquire .mem
      return some ⟨self, items, ⟨[], cap⟩⟩
    else
      release .mem self
      return none
  else return none

/-- `line_vec_push`; with 1 or 0 it returns the vector it leaves. -/
def lineVecPush (v : VecPtr) (line : LinePtr) (realloc : Bool) : Code (Bool × VecPtr) := do
  touch .mem v.self
  if v.vec.items.length = v.vec.cap then
    if maxCap < v.vec.cap then return (false, v)
    else if realloc then
      -- the array may move
      let items ← acquire .mem
      release .mem v.items
      return (true, ⟨v.self, items, ⟨v.vec.items ++ [line], v.vec.cap * 2⟩⟩)
    else return (false, v)
  else
    touch .mem v.items
    return (true, { v with vec := { v.vec with items := v.vec.items ++ [line] } })

/-- `line_vec_replace`. -/
def lineVecReplace (v : VecPtr) (idx : ℕ) (line : LinePtr) : Code VecPtr := do
  touch .mem v.self
  touch .mem v.items
  let old ← ofOption v.vec.items[idx]?
  release .mem old.addr
  return { v with vec := { v.vec with items := v.vec.items.set idx line } }

/-- `line_vec_sort`. -/
def lineVecSort (qsort : Qsort LinePtr (compareLines LinePtr.str)) (v : VecPtr) : Code VecPtr := do
  touch .mem v.self
  touch .mem v.items
  touchAll .mem (v.vec.items.map LinePtr.addr)
  return { v with vec := Tsag.lineVecSort qsort v.vec }

/-- One turn of `line_vec_uniq`'s loop. -/
def uniqStep (st : UniqState LinePtr) (r : ℕ) : Code (UniqState LinePtr) := do
  let line ← ofOption st.items[r]?
  if st.w > 0 then
    let last ← ofOption st.items[st.w - 1]?
    touch .mem line.addr
    touch .mem last.addr
    if strcmp line.str last.str = .eq then
      release .mem line.addr
      return { st with freed := st.freed ++ [line] }
    else return { st with items := st.items.set st.w line, w := st.w + 1 }
  else return { st with items := st.items.set st.w line, w := st.w + 1 }

/-- `line_vec_uniq`. -/
def lineVecUniq (v : VecPtr) : Code VecPtr := do
  touch .mem v.self
  touch .mem v.items
  let st ← (List.range v.vec.items.length).foldlM uniqStep ⟨v.vec.items, 0, []⟩
  return { v with vec := { v.vec with items := st.items.take st.w } }

/-- `line_vec_clear`. -/
def lineVecClear (v : VecPtr) : Code VecPtr := do
  touch .mem v.self
  touch .mem v.items
  releaseAll .mem (v.vec.items.map LinePtr.addr)
  return { v with vec := { v.vec with items := [] } }

/-- `line_vec_free`. -/
def lineVecFree (v : VecPtr) : Code Unit := do
  let v ← lineVecClear v
  release .mem v.items
  release .mem v.self

theorem wp_lineVecNew (structOk itemsOk : Bool) (cap : ℕ) :
    (lineVecNew structOk itemsOk cap).wp (fun v left => left = v.elim 0 VecPtr.owned ∧
      v.map VecPtr.value
        = if structOk && itemsOk then some (Tsag.lineVecNew BuiltLine cap) else none) 0 := by
  unfold lineVecNew
  cases structOk with
  | false => exact ⟨rfl, rfl⟩
  | true =>
    rw [if_pos rfl, wp_bind, wp_acquire]
    intro self
    cases itemsOk with
    | false => exact ⟨_, rfl, rfl, rfl⟩
    | true =>
      rw [if_pos rfl, wp_bind, wp_acquire]
      intro items
      refine ⟨?_, rfl⟩
      show _ = VecPtr.owned ⟨self, items, ⟨[], cap⟩⟩
      simp only [VecPtr.owned, VecPtr.frame, lineBlocks_nil]
      abel

/-- **A push that succeeds takes the line over**, and one that fails leaves it to the
caller. -/
theorem wp_lineVecPush (v : VecPtr) (line : LinePtr) (realloc : Bool) :
    (lineVecPush v line realloc).wp (fun r left =>
      Tsag.lineVecPush v.value line.line realloc = (if r.1 then some r.2.value else none) ∧
        if r.1 then left = r.2.owned else r.2 = v ∧ left = v.owned + {(.mem, line.addr)})
      (v.owned + {(.mem, line.addr)}) := by
  simp only [lineVecPush, wp_bind, wp_touch, Tsag.lineVecPush, VecPtr.length_value]
  refine ⟨by simp [v.mem_self], ?_⟩
  by_cases hfull : v.vec.items.length = v.vec.cap
  · have hfull' : v.vec.items.length = v.value.cap := hfull
    rw [if_pos hfull, if_pos hfull']
    by_cases hmax : maxCap < v.vec.cap
    · have hmax' : maxCap < v.value.cap := hmax
      rw [if_pos hmax, if_pos hmax']
      exact ⟨rfl, rfl, rfl⟩
    · have hmax' : ¬ maxCap < v.value.cap := hmax
      rw [if_neg hmax, if_neg hmax']
      cases realloc with
      | false => exact ⟨rfl, rfl, rfl⟩
      | true =>
        -- The items move to a larger block.
        rw [if_pos rfl, wp_bind, wp_acquire]
        intro items
        rw [wp_bind]
        refine ⟨{(.mem, items)} + {(.mem, v.self)} + lineBlocks v.vec.items
          + {(.mem, line.addr)}, ?_, ?_, ?_⟩
        · simp only [VecPtr.owned, VecPtr.frame]
          abel
        · simp [VecPtr.value]
        · simp only [VecPtr.owned, VecPtr.frame, if_true, lineBlocks_append, lineBlocks_cons,
            lineBlocks_nil]
          abel
  · have hfull' : ¬ v.vec.items.length = v.value.cap := hfull
    rw [if_neg hfull, if_neg hfull']
    refine ⟨by simp [v.mem_items], ?_, ?_⟩
    · simp [VecPtr.value]
    · simp only [VecPtr.owned, VecPtr.frame, if_true, lineBlocks_append, lineBlocks_cons,
        lineBlocks_nil]
      abel

/-- **The line replaced is released**, and the new one taken over. -/
theorem wp_lineVecReplace {v : VecPtr} {idx : ℕ} {line : LinePtr} {vec : LineVec BuiltLine}
    (h : Tsag.lineVecReplace v.value idx line.line = some vec) :
    (lineVecReplace v idx line).wp (fun v' left => v'.value = vec ∧ left = v'.owned)
      (v.owned + {(.mem, line.addr)}) := by
  unfold Tsag.lineVecReplace at h
  rw [VecPtr.length_value] at h
  split at h
  · next hidx =>
    obtain rfl := Option.some.inj h
    have hold : v.vec.items[idx]? = some v.vec.items[idx] := List.getElem?_eq_getElem hidx
    simp only [lineVecReplace, wp_bind, wp_touch, wp_ofOption]
    refine ⟨by simp [v.mem_self], by simp [v.mem_items], _, hold, ?_⟩
    -- the block of the old line is exchanged for that of the new one
    refine ⟨v.frame + lineBlocks (v.vec.items.set idx line), ?_, ?_, rfl⟩
    · rw [VecPtr.owned, lineBlocks_eraseIdx hold,
        lineBlocks_eraseIdx (List.getElem?_set_self hidx), List.eraseIdx_set_eq]
      abel
    · simp [VecPtr.value, List.map_set]
  · cases h

theorem wp_lineVecSort (qsort : Qsort LinePtr (compareLines LinePtr.str)) (v : VecPtr) :
    (lineVecSort qsort v).wp (fun v' left =>
      v'.vec = Tsag.lineVecSort qsort v.vec ∧ left = v'.owned) v.owned := by
  simp only [lineVecSort, wp_bind, wp_touch]
  refine ⟨v.mem_self, v.mem_items, wp_touchAll ?_ ⟨rfl, ?_⟩⟩
  · intro i hi
    obtain ⟨p, hp, rfl⟩ := List.mem_map.mp hi
    exact Multiset.mem_add.mpr (Or.inr (mem_lineBlocks hp))
  · rw [VecPtr.owned, VecPtr.owned, lineBlocks_perm (lineVecSort_perm qsort v.vec)]
    rfl

/-- A turn keeps the line it reads, or releases it. -/
theorem wp_uniqStep {st : UniqState LinePtr} {r : ℕ} (hr : r < st.items.length) (hw : st.w ≤ r) :
    (uniqStep st r).wp (fun st' left => Tsag.uniqStep LinePtr.str st r = some st' ∧
      left = lineBlocks (st'.items.take st'.w) + lineBlocks (st'.items.drop (r + 1)))
      (lineBlocks (st.items.take st.w) + lineBlocks (st.items.drop r)) := by
  have hline : st.items[r]? = some st.items[r] := List.getElem?_eq_getElem hr
  have hdrop : st.items.drop r = st.items[r] :: st.items.drop (r + 1) :=
    List.drop_eq_getElem_cons hr
  -- keeping the line moves it behind the lines kept
  have hkept : lineBlocks (st.items.take st.w) + lineBlocks (st.items.drop r)
      = lineBlocks ((st.items.set st.w st.items[r]).take (st.w + 1))
        + lineBlocks ((st.items.set st.w st.items[r]).drop (r + 1)) := by
    rw [List.take_add_one, List.take_set_of_le le_rfl, List.getElem?_set_self (by omega),
      List.drop_set_of_lt (by omega), hdrop]
    simp only [Option.toList_some, lineBlocks_append, lineBlocks_cons, lineBlocks_nil]
    abel
  simp only [uniqStep, Tsag.uniqStep, wp_bind, wp_ofOption, hline, Option.bind_eq_bind,
    Option.bind_some]
  refine ⟨_, rfl, ?_⟩
  by_cases h0 : st.w > 0
  · have hlast : st.items[st.w - 1]? = some st.items[st.w - 1] :=
      List.getElem?_eq_getElem (by omega)
    have hmem : st.items[st.w - 1] ∈ st.items.take st.w :=
      List.mem_take_iff_getElem.mpr ⟨st.w - 1, by omega, rfl⟩
    rw [if_pos h0, if_pos h0, hlast, wp_bind, wp_ofOption]
    refine ⟨_, rfl, ?_⟩
    rw [wp_bind, wp_touch, wp_bind, wp_touch]
    refine ⟨?_, ?_, ?_⟩
    · rw [hdrop, lineBlocks_cons]
      simp
    · exact Multiset.mem_add.mpr (Or.inl (mem_lineBlocks hmem))
    · simp only [Option.bind_some]
      by_cases heq : strcmp st.items[r].str st.items[st.w - 1].str = .eq
      · rw [if_pos heq, if_pos heq, wp_bind]
        refine ⟨_, ?_, rfl, rfl⟩
        rw [hdrop, lineBlocks_cons]
        abel
      · rw [if_neg heq, if_neg heq]
        exact ⟨rfl, hkept⟩
  · rw [if_neg h0, if_neg h0]
    exact ⟨rfl, hkept⟩

/-- **The duplicates are released**, each once, and the lines kept are not. -/
theorem wp_lineVecUniq (v : VecPtr) :
    (lineVecUniq v).wp (fun v' left => left = v'.owned ∧
      ∃ freed, Tsag.lineVecUniq LinePtr.str v.vec = some (v'.vec, freed)) v.owned := by
  simp only [lineVecUniq, wp_bind, wp_touch]
  refine ⟨v.mem_self, v.mem_items, ?_⟩
  refine wp_mono (wp_foldlM_range (fun n st left =>
    (List.range n).foldlM (Tsag.uniqStep LinePtr.str) ⟨v.vec.items, 0, []⟩ = some st ∧
      left = v.frame + (lineBlocks (st.items.take st.w) + lineBlocks (st.items.drop n)))
    _ ?_ ⟨rfl, by simp [VecPtr.owned]⟩) ?_
  · rintro n st _ hn ⟨hloop, rfl⟩
    obtain ⟨st₁, hloop₁, -, hw, hlen, -⟩ := uniqLoop_eq LinePtr.str v.vec.items hn.le
    obtain rfl := Option.some.inj (hloop₁.symm.trans hloop)
    apply wp_call (wp_uniqStep (by omega) hw) v.frame (add_comm _ _)
    rintro st' _ ⟨hstep, rfl⟩
    refine ⟨?_, add_comm _ _⟩
    rw [List.range_succ, List.foldlM_append, hloop]
    simp [hstep]
  · rintro st _ ⟨hloop, rfl⟩
    obtain ⟨st₁, hloop₁, -, -, hlen, -⟩ := uniqLoop_eq LinePtr.str v.vec.items le_rfl
    obtain rfl := Option.some.inj (hloop₁.symm.trans hloop)
    refine ⟨?_, st₁.freed, ?_⟩
    · rw [← hlen, List.drop_length, lineBlocks_nil, add_zero]
      rfl
    · rw [Tsag.lineVecUniq, hloop]
      rfl

theorem wp_lineVecClear (v : VecPtr) :
    (lineVecClear v).wp (fun v' left => v'.vec.items = [] ∧ v'.frame = v.frame ∧ left = v.frame)
      v.owned := by
  simp only [lineVecClear, wp_bind, wp_touch]
  refine ⟨v.mem_self, v.mem_items, ?_⟩
  rw [VecPtr.owned, add_comm, lineBlocks, wp_releaseAll]
  exact ⟨rfl, rfl, rfl⟩

/-- **Nothing is left of a vector that has been freed.** -/
theorem wp_lineVecFree (v : VecPtr) : (lineVecFree v).wp (fun _ left => left = 0) v.owned := by
  rw [lineVecFree, wp_bind]
  apply wp_mono (wp_lineVecClear v)
  rintro v' _ ⟨-, hframe, rfl⟩
  rw [← hframe, VecPtr.frame, add_comm, wp_bind, wp_release, ← add_zero {(Res.mem, v'.self)},
    wp_release]

/-! ### The line of a match -/

end Owned

/-- A file while its matches are looked at: the block of its path, that of the buffer it
has been read into, and the file. -/
structure FilePtr where
  path : ℕ
  source : ℕ
  file : SourceFile

/-- The blocks of the file. -/
def FilePtr.owned (f : FilePtr) : Owns := {(.mem, f.path)} + {(.mem, f.source)}

/-- The blocks of a line, if there is one. -/
def lineOwned (line : Option (ℕ × CStr)) : Owns := line.elim 0 fun l => {(.mem, l.1)}

namespace Owned

open Own

/-- `escape_pattern`. -/
def escapePattern (malloc : Malloc) (src : Bytes) : Code (Option (ℕ × CStr)) := do
  match ← ofOption (Tsag.escapePattern malloc src) with
  | none => return none
  | some pattern =>
      let dst ← acquire .mem
      return some (dst, pattern)

/-- `make_line`. -/
def makeLine (mallocPattern mallocLine : Malloc) (m : MatchInfo) (f : FilePtr) :
    Code (Option (ℕ × CStr)) := do
  touch .mem f.source
  if ¬ nameIsPrintable m.name then return none
  else
    let line ← ofOption (lineSlice f.file.text m.start)
    match ← escapePattern mallocPattern line with
    | none => return none
    | some (dst, pattern) =>
        touch .mem f.path
        touch .mem dst
        let text := formatLine (CStr.ofBuffer m.name).bytes f.file.path.bytes pattern.bytes
          m.kind.bytes
        -- a text too long for an `int` makes `n` negative
        if intMax < text.length then
          release .mem dst
          return none
        else match mallocLine.alloc (text.length + 1) with
          | none =>
              release .mem dst
              return none
          | some out =>
              let addr ← acquire .mem
              touch .mem f.path
              touch .mem dst
              release .mem dst
              return some (addr, snprintf out text)

/-- **`make_line` leaves the block of its line and no other**, on every path. -/
theorem wp_makeLine {mallocPattern mallocLine : Malloc} {m : MatchInfo} {f : FilePtr}
    {line : Option CStr}
    (h : Tsag.makeLine mallocPattern mallocLine m f.file.text f.file.path = some line) :
    (makeLine mallocPattern mallocLine m f).wp (fun r left =>
      r.map Prod.snd = line ∧ left = lineOwned r + f.owned) f.owned := by
  unfold Tsag.makeLine at h
  simp only [makeLine, wp_bind, wp_touch]
  refine ⟨by simp [FilePtr.owned], ?_⟩
  split at h
  · next hprint =>
    -- The name is not printable.
    obtain rfl := Option.some.inj h
    rw [if_pos hprint]
    exact ⟨rfl, (zero_add _).symm⟩
  · next hprint =>
    rw [if_neg hprint, wp_bind, wp_ofOption]
    obtain ⟨slice, hslice, h⟩ := Option.bind_eq_some_iff.mp h
    obtain ⟨pattern?, hpattern, h⟩ := Option.bind_eq_some_iff.mp h
    refine ⟨slice, hslice, ?_⟩
    rw [wp_bind, escapePattern, wp_bind, wp_ofOption]
    refine ⟨pattern?, hpattern, ?_⟩
    cases pattern? with
    | none =>
      obtain rfl := Option.some.inj h
      exact ⟨rfl, (zero_add _).symm⟩
    | some pattern =>
      simp only [wp_bind, wp_acquire, wp_pure, wp_touch]
      intro dst
      refine ⟨by simp [FilePtr.owned], by simp, ?_⟩
      simp only at h
      split at h
      · next hlong =>
        -- The line is too long: the pattern is freed.
        obtain rfl := Option.some.inj h
        rw [if_pos hlong, wp_bind, wp_release]
        exact ⟨rfl, (zero_add _).symm⟩
      · next hlong =>
        rw [if_neg hlong]
        cases hout : mallocLine.alloc ((formatLine (CStr.ofBuffer m.name).bytes
            f.file.path.bytes pattern.bytes m.kind.bytes).length + 1) with
        | none =>
          -- There is no memory for the line, and the pattern is freed.
          simp only [hout] at h ⊢
          obtain rfl := Option.some.inj h
          rw [wp_bind, wp_release]
          exact ⟨rfl, (zero_add _).symm⟩
        | some out =>
          simp only [hout] at h ⊢
          obtain rfl := Option.some.inj h
          simp only [wp_bind, wp_acquire, wp_touch]
          intro addr
          refine ⟨by simp [FilePtr.owned], by simp, ?_⟩
          -- the pattern has been copied and is freed, the line stays
          rw [add_left_comm, wp_release]
          exact ⟨rfl, rfl⟩

/-! ### The matches of a file -/

end Owned

/-- `seen` and `vec`. -/
structure MatchPtr where
  seen : Dedup
  vec : VecPtr

/-- The state of the loop, the lines without their blocks. -/
def MatchPtr.value (st : MatchPtr) : MatchState := ⟨st.seen, st.vec.value⟩

namespace Owned

open Own

/-- One turn of the loop of `parse_file_lines`. -/
def matchTurn (f : FilePtr) (st : MatchPtr) (mt : QueryMatch f.file.text) (mem : Memory) :
    Code MatchPtr :=
  match extractMatch f.file.text mt.captures with
  | none => return st
  | some m => do
      touch .mem st.vec.self
      match dedupClaim st.seen m.start m.stop mt.patternIndex st.vec.vec.items.length with
      | none => return st
      | some (seen, slot) =>
          match ← makeLine mem.pattern mem.line m f with
          | none => return ⟨seen, st.vec⟩
          | some (addr, str) =>
              let line : LinePtr := ⟨addr, str, m, mt.patternIndex⟩
              if slot = st.vec.vec.items.length then
                let idx := st.vec.vec.items.length
                match ← lineVecPush st.vec line mem.realloc with
                | (true, vec) => return ⟨dedupTrack seen m.start m.stop mt.patternIndex idx, vec⟩
                | (false, vec) =>
                    release .mem addr
                    return ⟨seen, vec⟩
              else
                let vec ← lineVecReplace st.vec slot line
                return ⟨seen, vec⟩

/-- The loop of `parse_file_lines`, after `examined` matches. -/
def matchLoop (f : FilePtr) (cursor tree : ℕ) : ℕ → MatchPtr →
    List (QueryMatch f.file.text × Memory) → Code MatchPtr
  | _, st, [] => return st
  | examined, st, (mt, mem) :: rest => do
      touch .cursor cursor
      touch .tree tree
      if examined + 1 > maxMatchesPerFile then return st
      else
        let st ← matchTurn f st mt mem
        matchLoop f cursor tree (examined + 1) st rest

/-- **A turn keeps its line in the vector or releases it**, and does what a turn does. -/
theorem wp_matchTurn {f : FilePtr} {st : MatchPtr} {mt : QueryMatch f.file.text} {mem : Memory}
    {st₁ : MatchState} (h : Tsag.matchTurn f.file st.value mt mem = some st₁) :
    (matchTurn f st mt mem).wp (fun st' left => st'.value = st₁ ∧ left = st'.vec.owned + f.owned)
      (st.vec.owned + f.owned) := by
  have hlen : st.value.vec.items.length = st.vec.vec.items.length := st.vec.length_value
  have hseen : st.value.seen = st.seen := rfl
  unfold Tsag.matchTurn at h
  unfold matchTurn
  rw [hlen, hseen] at h
  cases hm : extractMatch f.file.text mt.captures with
  | none =>
    -- The match has no name or no kind.
    simp only [hm] at h
    obtain rfl := Option.some.inj h
    exact ⟨rfl, rfl⟩
  | some m =>
    simp only [hm] at h
    rw [wp_bind, wp_touch]
    refine ⟨Multiset.mem_add.mpr (Or.inl st.vec.mem_self), ?_⟩
    cases hclaim : dedupClaim st.seen m.start m.stop mt.patternIndex st.vec.vec.items.length with
    | none =>
      -- The range has an entry for a pattern as good.
      simp only [hclaim] at h
      obtain rfl := Option.some.inj h
      exact ⟨rfl, rfl⟩
    | some claim =>
      obtain ⟨seen, slot⟩ := claim
      simp only [hclaim] at h
      obtain ⟨line?, hline, h⟩ := Option.bind_eq_some_iff.mp h
      rw [wp_bind]
      -- the vector is the frame of the call
      apply wp_call (wp_makeLine hline) st.vec.owned (add_comm _ _)
      rintro r _ ⟨rfl, rfl⟩
      cases r with
      | none =>
        -- No line has been made, and the table alone has changed.
        obtain rfl := Option.some.inj h
        exact ⟨rfl, by simp only [lineOwned, Option.elim_none]; abel⟩
      | some line =>
        obtain ⟨addr, str⟩ := line
        -- the line is one more block of the turn
        have hheld : lineOwned (some (addr, str)) + f.owned + st.vec.owned
            = st.vec.owned + {(.mem, addr)} + f.owned := by
          simp only [lineOwned, Option.elim_some]
          abel
        rw [hheld]
        simp only [Option.map_some] at h ⊢
        split at h
        · next hslot =>
          rw [if_pos hslot, wp_bind]
          have hpushed := wp_lineVecPush st.vec ⟨addr, str, m, mt.patternIndex⟩ mem.realloc
          apply wp_call hpushed _ rfl
          rintro ⟨pushed, vec⟩ own ⟨hpush, hown⟩
          have hvec : st.value.vec = st.vec.value := rfl
          rw [hvec, hpush] at h
          cases pushed with
          | true =>
            obtain rfl := Option.some.inj h
            exact ⟨rfl, by rw [hown]⟩
          | false =>
            -- It could not be pushed, and is freed.
            obtain rfl := Option.some.inj h
            obtain ⟨rfl, rfl⟩ := hown
            simp only [wp_bind]
            refine ⟨st.vec.owned + f.owned, ?_, rfl, rfl⟩
            abel
        · next hslot =>
          -- It takes the place of a line that is freed.
          obtain ⟨vec₁, hreplace, h⟩ := Option.bind_eq_some_iff.mp h
          obtain rfl := Option.some.inj h
          have hreplace' : Tsag.lineVecReplace st.vec.value _
              (LinePtr.line ⟨addr, str, m, mt.patternIndex⟩) = some vec₁ := hreplace
          rw [if_neg hslot, wp_bind]
          apply wp_call (wp_lineVecReplace hreplace') _ rfl
          rintro vec _ ⟨rfl, rfl⟩
          exact ⟨rfl, rfl⟩

/-- **Every line of the matches lies in the vector in the end**, or has been released. -/
theorem wp_matchLoop {f : FilePtr} {cursor tree : ℕ}
    (ms : List (QueryMatch f.file.text × Memory)) :
    ∀ {examined : ℕ} {st : MatchPtr} {st₁ : MatchState},
      Tsag.matchLoop f.file examined st.value ms = some st₁ →
      (matchLoop f cursor tree examined st ms).wp (fun st' left => st'.value = st₁ ∧
        left = st'.vec.owned + f.owned + {(.cursor, cursor)} + {(.tree, tree)})
        (st.vec.owned + f.owned + {(.cursor, cursor)} + {(.tree, tree)}) := by
  induction ms with
  | nil =>
    intro examined st st₁ h
    obtain rfl := Option.some.inj h
    exact ⟨rfl, rfl⟩
  | cons m rest ih =>
    intro examined st st₁ h
    obtain ⟨mt, mem⟩ := m
    rw [Tsag.matchLoop] at h
    simp only [matchLoop, wp_bind, wp_touch]
    refine ⟨by simp, by simp, ?_⟩
    split at h
    · next hcap =>
      -- The loop has examined as many matches as it may.
      obtain rfl := Option.some.inj h
      rw [if_pos hcap]
      exact ⟨rfl, rfl⟩
    · next hcap =>
      obtain ⟨st₂, hturn, h⟩ := Option.bind_eq_some_iff.mp h
      rw [if_neg hcap, wp_bind]
      -- the cursor and the tree are the frame of the turn
      apply wp_call (wp_matchTurn hturn) ({(.cursor, cursor)} + {(.tree, tree)}) (by abel)
      rintro st' _ ⟨rfl, rfl⟩
      rw [← add_assoc]
      exact ih h

end Owned

end Tsag
