import Tsag.LineOwnership
import Tsag.MergeTurns
import Tsag.Pipeline
import Tsag.Worker

/-!
# The blocks of a worker and of the merge thread

A worker owns its parser, its cursor and its vector, and while it parses the path, the
buffer the file has been read into and the tree.  The merge thread owns the vectors it has
collected, until it frees them.

## Main definitions

* `PathPtr` — a path from the work queue.
* `Owned.readFile`, `Owned.parseFileLines` — the functions of `parse.c`.
* `Owned.workerStart`, `Owned.workerTurn`, `Owned.workerFinish` — the parts of `worker`.
* `Owned.merge` — `merge`, once it has collected its batches.

## Main results

* `Owned.wp_readFile` — on every path the descriptor or the stream is closed.
* `Owned.wp_parseFileLines` — nothing is left of a file but its lines.
* `Owned.wp_merge` — `merge` reads lines that are live, and nothing is left of them.
-/

namespace Tsag

/-- A path: a `char*`, and the string there. -/
structure PathPtr where
  addr : ℕ
  path : CStr

/-- The parser and the cursor of a worker. -/
structure Tools where
  parser : ℕ
  cursor : ℕ

/-- The blocks of the two. -/
def Tools.owned (t : Tools) : Owns := {(.parser, t.parser)} + {(.cursor, t.cursor)}

/-- The blocks of some vectors. -/
def vecsOwned (vecs : List VecPtr) : Owns := (vecs.map VecPtr.owned).sum

@[simp] theorem vecsOwned_nil : vecsOwned [] = 0 := rfl

@[simp] theorem vecsOwned_cons (v : VecPtr) (vecs : List VecPtr) :
    vecsOwned (v :: vecs) = v.owned + vecsOwned vecs := by
  rw [vecsOwned, List.map_cons, List.sum_cons]
  rfl

@[simp] theorem vecsOwned_append (vecs vecs' : List VecPtr) :
    vecsOwned (vecs ++ vecs') = vecsOwned vecs + vecsOwned vecs' := by
  rw [vecsOwned, List.map_append, List.sum_append]
  rfl

/-- The blocks of a vector are among those of the vectors. -/
theorem mem_vecsOwned {v : VecPtr} {vecs : List VecPtr} (hv : v ∈ vecs) {x : Res × ℕ}
    (hx : x ∈ v.owned) : x ∈ vecsOwned vecs := by
  obtain ⟨before, after, rfl⟩ := List.append_of_mem hv
  simp [hx]

namespace Owned

open Own

/-! ### Reading a file -/

/-- The buffer a file has been read into, if it has been. -/
def bufferOwned {α : Type} (r : Option (ℕ × α)) : Owns := r.elim 0 fun b => {(.mem, b.1)}

section Read

variable {path : CStr} {calls : FileCalls path}

/-- `read_file`. -/
def readFile (calls : FileCalls path) : Code (Option (ℕ × Bytes × ℕ)) :=
  if ¬ calls.opens then return none
  else do
    let fd ← acquire .fd
    match calls.fstat with
    | none =>
        release .fd fd
        return none
    | some sb =>
        if sb.Refused then
          release .fd fd
          return none
        else if ¬ calls.fdopen then
          release .fd fd
          return none
        else
          -- the stream takes the descriptor over
          release .fd fd
          let f ← acquire .file
          let n := sb.size.toNat
          match calls.malloc.alloc (n + 1) with
          | none =>
              release .file f
              return none
          | some buf =>
              let addr ← acquire .mem
              touch .file f
              touch .mem addr
              let got := (calls.fread n).length
              release .file f
              let (buf, _) ← ofOption (store 0 (calls.fread n ++ buf.drop got, got))
              touch .mem addr
              return some (addr, buf, got)

/-- The buffer, as the file whose text is the bytes before the terminator; the path has
been opened, and a file that is too large refused. -/
def readSource (calls : FileCalls path) : Code (Option (ℕ × SourceFile)) := do
  match ← readFile calls with
  | none => return none
  | some (addr, source, srcLen) =>
      if h : path.bytes.length < pathMax ∧ (source.take srcLen).length ≤ maxFileSize then
        return some (addr, ⟨path, source.take srcLen, h.1, h.2⟩)
      else fail

/-- **`read_file` closes what it opens**, on every path, and leaves its buffer. -/
theorem wp_readFile {r : Option (Bytes × ℕ)} (h : Tsag.readFile calls = some r) :
    (readFile calls).wp (fun r' left => r'.map Prod.snd = r ∧ left = bufferOwned r') 0 := by
  unfold Tsag.readFile at h
  unfold readFile
  split at h
  · next hopens =>
    obtain rfl := Option.some.inj h
    rw [if_pos hopens]
    exact ⟨rfl, rfl⟩
  · next hopens =>
    rw [if_neg hopens, wp_bind, wp_acquire]
    intro fd
    cases hstat : calls.fstat with
    | none =>
      -- `fstat` fails: the descriptor is closed.
      simp only [hstat] at h ⊢
      obtain rfl := Option.some.inj h
      rw [wp_bind, wp_release]
      exact ⟨rfl, rfl⟩
    | some sb =>
      simp only [hstat] at h ⊢
      split at h
      · next hrefused =>
        -- The file is refused.
        obtain rfl := Option.some.inj h
        rw [if_pos hrefused, wp_bind, wp_release]
        exact ⟨rfl, rfl⟩
      · next hrefused =>
        rw [if_neg hrefused]
        split at h
        · next hfdopen =>
          obtain rfl := Option.some.inj h
          rw [if_pos hfdopen, wp_bind, wp_release]
          exact ⟨rfl, rfl⟩
        · next hfdopen =>
          rw [if_neg hfdopen, wp_bind, wp_release, wp_bind, wp_acquire]
          intro f
          cases hbuf : calls.malloc.alloc (sb.size.toNat + 1) with
          | none =>
            simp only [hbuf] at h ⊢
            obtain rfl := Option.some.inj h
            rw [wp_bind, wp_release]
            exact ⟨rfl, rfl⟩
          | some buf =>
            simp only [hbuf] at h ⊢
            obtain ⟨stored, hstore, h⟩ := Option.bind_eq_some_iff.mp h
            obtain rfl := Option.some.inj h
            simp only [wp_bind, wp_acquire, wp_touch]
            intro addr
            refine ⟨by simp, by simp, {(.mem, addr)}, by abel, (wp_ofOption _).mpr ?_⟩
            exact ⟨stored, hstore, by simp, rfl, rfl⟩

theorem wp_readSource {r : Option SourceFile} (h : Tsag.readSource calls = some r) :
    (readSource calls).wp (fun r' left => r'.map Prod.snd = r ∧ left = bufferOwned r') 0 := by
  unfold Tsag.readSource at h
  rw [readSource, wp_bind]
  split at h
  · cases h
  · next hread =>
    obtain rfl := Option.some.inj h
    apply wp_mono (wp_readFile hread)
    rintro r' _ ⟨hr', rfl⟩
    obtain rfl := Option.map_eq_none_iff.mp hr'
    exact ⟨rfl, rfl⟩
  · next source srcLen hread =>
    obtain rfl := Option.some.inj h
    apply wp_mono (wp_readFile hread)
    rintro r' _ ⟨hr', rfl⟩
    obtain ⟨⟨addr, _, _⟩, rfl, heq⟩ := Option.map_eq_some_iff.mp hr'
    obtain ⟨rfl, rfl⟩ := Prod.mk.inj heq
    simp only [dif_pos (sourceFile_of_readFile hread)]
    exact ⟨rfl, rfl⟩

end Read

/-! ### Parsing a file -/

/-- `parse_file_lines`; it returns its return code and the vector it leaves.  What it reads
of the entry of its language is not among the touches. -/
def parseFileLines (c : Corpus) (mem : ℕ → Memory) (p : PathPtr) (t : Tools) (v : VecPtr) :
    Code (ℕ × VecPtr) := do
  touch .mem p.addr
  match findExtension p.path with
  | none => return (1, v)
  | some ext =>
      match c.langCacheGet ext with
      | none => return (1, v)
      | some entry =>
          touch .parser t.parser
          if ¬ entry.accepted then return (1, v)
          else
            match ← readSource (c.calls p.path) with
            | none => return (1, v)
            | some (source, file) =>
                touch .mem source
                if hasLongLine file.text then
                  release .mem source
                  return (1, v)
                else
                  touch .parser t.parser
                  touch .mem source
                  match entry.query file.text with
                  | none =>
                      release .mem source
                      return (1, v)
                  | some ms =>
                      let tree ← acquire .tree
                      touch .cursor t.cursor
                      let st ← matchLoop ⟨p.addr, source, file⟩ t.cursor tree 0 ⟨dedupInit, v⟩
                        (withMemory mem ms)
                      release .tree tree
                      release .mem source
                      return (0, st.vec)

/-- **Nothing is left of a file but its lines**: the buffer and the tree are released on
every path, and the path and the tools are not. -/
theorem wp_parseFileLines {c : Corpus} {mem : ℕ → Memory} {p : PathPtr} {t : Tools} {v : VecPtr}
    {rc : ℕ} {vec : LineVec BuiltLine}
    (h : Tsag.parseFileLines c mem p.path v.value = some (rc, vec)) :
    (parseFileLines c mem p t v).wp (fun r left => r.1 = rc ∧ r.2.value = vec ∧
      left = r.2.owned + {(.mem, p.addr)} + t.owned)
      (v.owned + {(.mem, p.addr)} + t.owned) := by
  unfold Tsag.parseFileLines at h
  rw [parseFileLines, wp_bind, wp_touch]
  refine ⟨by simp, ?_⟩
  -- the file is left alone
  have hnone : some (1, v.value) = some (rc, vec) → 1 = rc ∧ v.value = vec ∧
      v.owned + {(.mem, p.addr)} + t.owned
        = v.owned + {(.mem, p.addr)} + t.owned := by
    intro heq
    obtain ⟨rfl, rfl⟩ := Prod.mk.inj (Option.some.inj heq)
    exact ⟨rfl, rfl, rfl⟩
  cases hext : findExtension p.path with
  | none =>
    simp only [hext] at h ⊢
    exact hnone h
  | some ext =>
    simp only [hext] at h ⊢
    cases hentry : c.langCacheGet ext with
    | none =>
      simp only [hentry] at h ⊢
      exact hnone h
    | some entry =>
      simp only [hentry] at h ⊢
      rw [wp_bind, wp_touch]
      refine ⟨by simp [Tools.owned], ?_⟩
      split at h
      · next haccepted =>
        -- The language is not one for this parser.
        rw [if_pos haccepted]
        exact hnone h
      · next haccepted =>
        obtain ⟨file?, hread, h⟩ := Option.bind_eq_some_iff.mp h
        rw [if_neg haccepted, wp_bind]
        -- the source is a block of its own from here on
        apply wp_call (wp_readSource hread) _ (zero_add _).symm
        rintro r _ ⟨rfl, rfl⟩
        cases r with
        | none =>
          simp only [bufferOwned, Option.elim_none, zero_add]
          exact hnone h
        | some b =>
          obtain ⟨source, file⟩ := b
          simp only [Option.map_some] at h
          simp only [bufferOwned, Option.elim_some, wp_bind, wp_touch]
          refine ⟨by simp, ?_⟩
          split at h
          · next hlong =>
            -- A line is too long.
            rw [if_pos hlong, wp_bind, wp_release]
            exact hnone h
          · next hlong =>
            rw [if_neg hlong]
            simp only [wp_bind, wp_touch]
            refine ⟨by simp [Tools.owned], by simp, ?_⟩
            cases hms : entry.query file.text with
            | none =>
              simp only [hms] at h ⊢
              rw [wp_bind, wp_release]
              exact hnone h
            | some ms =>
              simp only [hms] at h ⊢
              obtain ⟨st₁, hloop, h⟩ := Option.bind_eq_some_iff.mp h
              obtain ⟨rfl, rfl⟩ := Prod.mk.inj (Option.some.inj h)
              simp only [wp_bind, wp_acquire, wp_touch]
              intro tree
              refine ⟨by simp [Tools.owned], ?_⟩
              have hloop' : Tsag.matchLoop (FilePtr.file ⟨p.addr, source, file⟩) 0
                  (MatchPtr.value ⟨dedupInit, v⟩) (withMemory mem ms) = some st₁ := hloop
              -- the loop has the parser neither to touch nor to free
              apply wp_call (wp_matchLoop _ hloop') {(.parser, t.parser)}
              · simp only [FilePtr.owned, Tools.owned]
                abel
              · rintro st' _ ⟨rfl, rfl⟩
                -- what is left to release is the tree and the source
                refine ⟨{(.mem, source)} + (st'.vec.owned + {(.mem, p.addr)}
                  + t.owned), ?_, _, rfl, rfl, rfl, rfl⟩
                simp only [FilePtr.owned, Tools.owned]
                abel

/-! ### The parts of a worker -/

/-- `worker`, up to its first `io_queue_get`: the parser and the cursor, and the vector if
there is one.  Of the two allocations of `line_vec_new`, `structOk` is about the first. -/
def workerStart (u : StartUp) (structOk : Bool) : Code (Option (Tools × Option VecPtr)) :=
  if u = .parserFails then return none
  else do
    let parser ← acquire .parser
    if u = .cursorFails then
      release .parser parser
      return none
    else
      let cursor ← acquire .cursor
      let vec ← lineVecNew (u = .ok || structOk) (u = .ok) 128
      return some (⟨parser, cursor⟩, vec)

/-- A turn of the loop of `worker`, for the path taken. -/
def workerTurn (c : Corpus) (mem : ℕ → Memory) (p : PathPtr) (t : Tools) (v : VecPtr) :
    Code VecPtr := do
  let (_, v) ← parseFileLines c mem p t v
  release .mem p.addr
  return v

/-- What `worker` does before it puts its vector on the merge queue. -/
def workerFinish (qsort : Qsort LinePtr (compareLines LinePtr.str)) (v : VecPtr) :
    Code VecPtr := do
  let v ← lineVecSort qsort v
  lineVecUniq v

/-- What `worker` does last. -/
def workerEnd (t : Tools) : Code Unit := do
  release .cursor t.cursor
  release .parser t.parser

/-- What a start-up leaves. -/
def startOwned (r : Option (Tools × Option VecPtr)) : Owns :=
  r.elim 0 fun r => r.2.elim 0 VecPtr.owned + r.1.owned

/-- **A start-up that fails leaves nothing**, and one without a vector the tools. -/
theorem wp_workerStart (u : StartUp) (structOk : Bool) :
    (workerStart u structOk).wp (fun r left => left = startOwned r ∧
      (r.isSome ↔ u.TakesPaths) ∧ ∀ x ∈ r, (x.2.isSome ↔ u = .ok) ∧
        ∀ v ∈ x.2, v.value = Tsag.lineVecNew BuiltLine 128) 0 := by
  unfold workerStart
  -- a parser, then a cursor, then the vector
  by_cases hparser : u = .parserFails
  · subst hparser
    rw [if_pos rfl]
    exact ⟨rfl, by simp [StartUp.TakesPaths], by simp⟩
  · rw [if_neg hparser, wp_bind, wp_acquire]
    intro parser
    by_cases hcursor : u = .cursorFails
    · subst hcursor
      rw [if_pos rfl, wp_bind, wp_release]
      exact ⟨rfl, by simp [StartUp.TakesPaths], by simp⟩
    · rw [if_neg hcursor, wp_bind, wp_acquire]
      intro cursor
      rw [wp_bind]
      -- whether there is a vector or not, the worker goes on with its tools
      apply wp_call (wp_lineVecNew _ _ _) _ (zero_add _).symm
      rintro vec _ ⟨rfl, hvec⟩
      refine ⟨?_, ?_, ?_⟩
      · simp only [startOwned, Option.elim_some, Tools.owned]
        abel
      · cases u <;> simp_all [StartUp.TakesPaths]
      · rintro _ ⟨⟩
        have hsome := congrArg Option.isSome hvec
        rw [Option.isSome_map] at hsome
        refine ⟨by rw [hsome]; cases u <;> simp_all, ?_⟩
        intro v hv
        obtain rfl := Option.mem_def.mp hv
        rw [Option.map_some] at hvec
        split at hvec
        · exact Option.some.inj hvec
        · cases hvec

/-- **Nothing is left of a path that has been parsed** but its lines. -/
theorem wp_workerTurn (c : Corpus) (mem : ℕ → Memory) (p : PathPtr) (t : Tools) (v : VecPtr) :
    (workerTurn c mem p t v).wp (fun v' left =>
      (∃ rc, Tsag.parseFileLines c mem p.path v.value = some (rc, v'.value)) ∧
        left = v'.owned + t.owned) ({(.mem, p.addr)} + (v.owned + t.owned)) := by
  obtain ⟨rc, vec, _, hparse, -⟩ := parseFileLines_sound c mem p.path v.value
  rw [workerTurn, wp_bind]
  apply wp_call (wp_parseFileLines hparse) 0 (by abel)
  rintro ⟨rc, v'⟩ _ ⟨rfl, rfl, rfl⟩
  refine ⟨v'.owned + t.owned, by abel, ⟨rc, hparse⟩, rfl⟩

/-- The vector put on the merge queue: it holds lines of the one before, each string of
them once and in order. -/
theorem wp_workerFinish (qsort : Qsort LinePtr (compareLines LinePtr.str)) (v : VecPtr) :
    (workerFinish qsort v).wp (fun v' left => left = v'.owned ∧
      (v'.vec.items.Pairwise fun a b => a.str < b.str) ∧
      (∀ p ∈ v'.vec.items, p ∈ v.vec.items) ∧
      ∀ p ∈ v.vec.items, ∃ p' ∈ v'.vec.items, p'.str = p.str) v.owned := by
  rw [workerFinish, wp_bind]
  apply wp_mono (wp_lineVecSort qsort v)
  rintro v₁ _ ⟨hv₁, rfl⟩
  apply wp_mono (wp_lineVecUniq v₁)
  rintro v' _ ⟨rfl, freed, huniq⟩
  rw [hv₁] at huniq
  obtain ⟨hstrict, hsub, hall⟩ := lineVecUniq_sort qsort huniq
  exact ⟨rfl, hstrict, hsub, hall⟩

theorem wp_workerEnd (t : Tools) : (workerEnd t).wp (fun _ left => left = 0) t.owned := by
  rw [workerEnd, Tools.owned, add_comm, wp_bind, wp_release, ← add_zero {(Res.parser, t.parser)},
    wp_release]

/-! ### The merge -/

/-- Free vectors one after the other. -/
def freeVecs : List VecPtr → Code Unit
  | [] => return ()
  | v :: vecs => do
      lineVecFree v
      freeVecs vecs

/-- `merge`, once it has collected its batches; it returns the lines written.  The touches are
those of the vectors and of their lines, and not those of the merge queue and the stream. -/
def merge (batches : List VecPtr) (heap : List HeapEntry) : Code (List BuiltLine) := do
  touchAll .mem (batches.map VecPtr.self)
  touchAll .mem (batches.map VecPtr.items)
  let out ← ofOption (Tsag.merge LinePtr.str (batches.map VecPtr.vec) heap)
  -- a line that is compared is written sooner or later
  touchAll .mem (out.map LinePtr.addr)
  freeVecs batches
  return out.map LinePtr.line

theorem wp_freeVecs (vecs : List VecPtr) :
    (freeVecs vecs).wp (fun _ left => left = 0) (vecsOwned vecs) := by
  induction vecs with
  | nil => exact rfl
  | cons v vecs ih =>
    rw [freeVecs, wp_bind, vecsOwned_cons]
    apply wp_call (wp_lineVecFree v) _ rfl
    rintro _ _ rfl
    rwa [zero_add]

/-- **The merge reads lines that are live and frees every batch**: what it writes are the
lines of sorted batches, in order, and nothing is left of them. -/
theorem wp_merge {batches : List VecPtr} {heap : List HeapEntry}
    (hsorted : ∀ v ∈ batches, v.vec.items.Pairwise fun a b => a.str ≤ b.str)
    (hroom : batches.length ≤ heap.length) :
    (merge batches heap).wp (fun out left => left = 0 ∧
      (out.Pairwise fun a b => a.str ≤ b.str) ∧
      out.Perm (batches.flatMap fun v => v.vec.items.map LinePtr.line)) (vecsOwned batches) := by
  have hall : ∀ vec ∈ batches.map VecPtr.vec, vec.items.Pairwise fun a b => a.str ≤ b.str := by
    intro vec hvec
    obtain ⟨v, hv, rfl⟩ := List.mem_map.mp hvec
    exact hsorted v hv
  obtain ⟨out, hmerge, horder, hlines⟩ := merge_spec hall heap (by rwa [List.length_map])
  rw [allLines_eq_flatMap, List.flatMap_map, Multiset.coe_eq_coe] at hlines
  simp only [merge, wp_bind]
  -- the vectors, their arrays and the lines written are all live
  refine wp_touchAll ?_ (wp_touchAll ?_ ((wp_ofOption _).mpr ⟨out, hmerge, wp_touchAll ?_ ?_⟩))
  · intro i hi
    obtain ⟨v, hv, rfl⟩ := List.mem_map.mp hi
    exact mem_vecsOwned hv v.mem_self
  · intro i hi
    obtain ⟨v, hv, rfl⟩ := List.mem_map.mp hi
    exact mem_vecsOwned hv v.mem_items
  · intro i hi
    obtain ⟨p, hp, rfl⟩ := List.mem_map.mp hi
    -- a line that is written is one of a batch
    obtain ⟨v, hv, hpv⟩ := List.mem_flatMap.mp (hlines.subset hp)
    exact mem_vecsOwned hv (Multiset.mem_add.mpr (Or.inr (mem_lineBlocks hpv)))
  · -- They are freed when the lines have been written.
    apply wp_mono (wp_freeVecs batches)
    rintro _ _ rfl
    refine ⟨rfl, List.pairwise_map.mpr horder, ?_⟩
    rw [← List.map_flatMap]
    exact hlines.map _

end Owned

end Tsag
