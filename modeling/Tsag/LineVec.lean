import Mathlib.Algebra.Group.Nat.Defs
import Mathlib.Data.List.Induction
import Mathlib.Data.List.Sort
import Tsag.Lib.CString

/-!
# Line vectors

A worker's lines lie in a vector of pointers, and `str` is the string a pointer
points to.  The worker sorts its vector and drops adjacent duplicates before it
puts it on the merge queue.

## Main definitions

* `LineVec P` — the vector; `lineVecNew`, `lineVecPush`, `lineVecReplace`, `lineVecSort`,
  `lineVecUniq`.
* `Qsort` — what the C library promises of `qsort`.
* `keep` — what one turn of `lineVecUniq`'s loop does to the lines kept and freed.

## Main results

* `lineVecUniq_eq` — the loop works in place and stays inside the vector.
* `keep_perm` — every line is kept or freed.
* `lineVecUniq_sort` — after a sort, the strings kept are the strings present, in
  strictly increasing order.
* `lineVecUniq_sorted_set` — all of this of the two calls, with every pointer kept or
  freed once.
-/

namespace Tsag

/-- `LineVec`.  `len` is the number of items. -/
structure LineVec (P : Type*) where
  /-- `items[0 .. len)`. -/
  items : List P
  /-- The slots allocated. -/
  cap : ℕ
  deriving DecidableEq, Repr

variable {P : Type*}

/-- `SIZE_MAX / (2 * sizeof(char*))`. -/
def maxCap : ℕ := (2 ^ 64 - 1) / 16

/-- `line_vec_new`, its allocations successful. -/
def lineVecNew (P : Type*) (cap : ℕ) : LineVec P := ⟨[], cap⟩

/-- `line_vec_push`, `none` when it returns 0; the flag is whether `realloc`, where
it is called, succeeds. -/
def lineVecPush (vec : LineVec P) (line : P) (realloc : Bool) : Option (LineVec P) :=
  if vec.items.length = vec.cap then
    if maxCap < vec.cap then none
    else if realloc then some ⟨vec.items ++ [line], vec.cap * 2⟩ else none
  else some { vec with items := vec.items ++ [line] }

/-- A push that succeeds appends its line. -/
theorem lineVecPush_items {vec vec' : LineVec P} {line : P} {realloc : Bool}
    (h : lineVecPush vec line realloc = some vec') : vec'.items = vec.items ++ [line] := by
  unfold lineVecPush at h
  split at h
  · split at h
    · cases h
    · split at h
      · obtain rfl := Option.some.inj h
        rfl
      · cases h
  · obtain rfl := Option.some.inj h
    rfl

/-- A push succeeds when the memory for it is to be had. -/
theorem isSome_lineVecPush {vec : LineVec P} (line : P) (hroom : vec.items.length ≤ maxCap) :
    (lineVecPush vec line true).isSome := by
  unfold lineVecPush
  split
  · next hfull => rw [if_neg (by omega)]; rfl
  · rfl

/-- `line_vec_replace`, `none` where its assertion fails; the line replaced is freed. -/
def lineVecReplace (vec : LineVec P) (idx : ℕ) (line : P) : Option (LineVec P) :=
  if idx < vec.items.length then some { vec with items := vec.items.set idx line } else none

/-! ### Sorting -/

/-- `compare_lines`. -/
def compareLines (str : P → CStr) (a b : P) : Ordering := strcmp (str a) (str b)

/-- What the C library promises of `qsort`: a permutation of its input that the
comparison finds ordered.  Equal elements may come in any order. -/
structure Qsort (P : Type*) (cmp : P → P → Ordering) where
  sort : List P → List P
  perm : ∀ l, (sort l).Perm l
  ordered : ∀ l, (sort l).Pairwise fun a b => cmp a b ≠ .gt

/-- A merge sort keeps the promise for lines. -/
def Qsort.mergeSort (str : P → CStr) : Qsort P (compareLines str) where
  sort l := l.mergeSort fun a b => compareLines str a b != .gt
  perm l := List.mergeSort_perm l _
  ordered l := by
    have htrans : ∀ a b c, (compareLines str a b != .gt) = true →
        (compareLines str b c != .gt) = true → (compareLines str a c != .gt) = true := by
      intro a b c
      simp only [bne_iff_ne, compareLines, strcmp_ne_gt_iff]
      exact le_trans
    have htotal :
        ∀ a b, ((compareLines str a b != .gt) || (compareLines str b a != .gt)) = true := by
      intro a b
      simp only [Bool.or_eq_true, bne_iff_ne, compareLines, strcmp_ne_gt_iff]
      exact le_total _ _
    simpa using List.pairwise_mergeSort htrans htotal l

/-- `line_vec_sort`. -/
def lineVecSort {str : P → CStr} (qsort : Qsort P (compareLines str)) (vec : LineVec P) :
    LineVec P :=
  { vec with items := qsort.sort vec.items }

theorem lineVecSort_perm {str : P → CStr} (qsort : Qsort P (compareLines str)) (vec : LineVec P) :
    (lineVecSort qsort vec).items.Perm vec.items :=
  qsort.perm vec.items

theorem lineVecSort_ordered {str : P → CStr} (qsort : Qsort P (compareLines str))
    (vec : LineVec P) : (lineVecSort qsort vec).items.Pairwise fun a b => str a ≤ str b :=
  (qsort.ordered vec.items).imp fun h => (strcmp_ne_gt_iff _ _).mp h

/-! ### Dropping adjacent duplicates -/

/-- The state of `line_vec_uniq`'s loop. -/
structure UniqState (P : Type*) where
  items : List P
  /-- The slot the next line kept goes to. -/
  w : ℕ
  /-- What has been freed, in order. -/
  freed : List P

/-- One turn of `line_vec_uniq`'s loop. -/
def uniqStep (str : P → CStr) (st : UniqState P) (r : ℕ) : Option (UniqState P) := do
  let line ← st.items[r]?
  if st.w > 0 then
    let last ← st.items[st.w - 1]?
    if strcmp (str line) (str last) = .eq then
      return { st with freed := st.freed ++ [line] }
    else
      return { st with items := st.items.set st.w line, w := st.w + 1 }
  else
    return { st with items := st.items.set st.w line, w := st.w + 1 }

/-- `line_vec_uniq`: the vector it leaves and the lines it frees. -/
def lineVecUniq (str : P → CStr) (vec : LineVec P) : Option (LineVec P × List P) := do
  let st ← (List.range vec.items.length).foldlM (uniqStep str) ⟨vec.items, 0, []⟩
  return ({ vec with items := st.items.take st.w }, st.freed)

/-- The lines kept and the lines freed, after one more line. -/
def keep (str : P → CStr) (kf : List P × List P) (line : P) : List P × List P :=
  if (kf.1.getLast?).any fun last => strcmp (str line) (str last) = .eq then
    (kf.1, kf.2 ++ [line])
  else (kf.1 ++ [line], kf.2)

/-- One turn of the loop keeps or frees the line it reads, and leaves those yet to
be read alone. -/
theorem uniqStep_eq (str : P → CStr) {st : UniqState P} {r : ℕ} {line : P}
    (hline : st.items[r]? = some line) (hw : st.w ≤ r) :
    ∃ st', uniqStep str st r = some st' ∧
      (st'.items.take st'.w, st'.freed) = keep str (st.items.take st.w, st.freed) line ∧
      st'.w ≤ r + 1 ∧ st'.items.length = st.items.length ∧
      st'.items.drop (r + 1) = st.items.drop (r + 1) := by
  have hr : r < st.items.length := (List.getElem?_eq_some_iff.mp hline).1
  have hwlen : st.w < st.items.length := lt_of_le_of_lt hw hr
  -- keeping the line writes it to the end of the lines kept, behind those to be read
  have hkept : (st.items.set st.w line).take (st.w + 1) = st.items.take st.w ++ [line] := by
    rw [List.take_add_one, List.take_set_of_le le_rfl, List.getElem?_set_self hwlen]
    rfl
  have hrest : (st.items.set st.w line).drop (r + 1) = st.items.drop (r + 1) :=
    List.drop_set_of_lt (by omega)
  -- the first line is always kept
  by_cases h0 : st.w = 0
  · refine ⟨{ st with items := st.items.set st.w line, w := st.w + 1 }, ?_, ?_, ?_, ?_, ?_⟩
    · simp [uniqStep, hline, h0]
    · simp only [hkept]
      simp [keep, h0]
    · exact Nat.succ_le_succ hw
    · exact List.length_set
    · exact hrest
  · -- another one is compared with the last line kept
    have hlast : st.items[st.w - 1]? = (st.items.take st.w).getLast? := by
      rw [List.getLast?_eq_getElem?, List.length_take, min_eq_left hwlen.le,
        List.getElem?_take_of_lt (by omega)]
    obtain ⟨last, hread⟩ : ∃ last, st.items[st.w - 1]? = some last :=
      ⟨_, List.getElem?_eq_getElem (by omega)⟩
    rw [hread] at hlast
    by_cases heq : strcmp (str line) (str last) = .eq
    · refine ⟨{ st with freed := st.freed ++ [line] }, ?_, ?_, ?_, rfl, rfl⟩
      · simp [uniqStep, hline, h0, hread, heq, Nat.pos_of_ne_zero]
      · simp [keep, ← hlast, heq]
      · exact Nat.le_succ_of_le hw
    · refine ⟨{ st with items := st.items.set st.w line, w := st.w + 1 }, ?_, ?_, ?_, ?_, ?_⟩
      · simp [uniqStep, hline, h0, hread, heq, Nat.pos_of_ne_zero]
      · simp only [hkept]
        simp [keep, ← hlast, heq]
      · exact Nat.succ_le_succ hw
      · exact List.length_set
      · exact hrest

/-- After `n` turns the lines kept and freed are what `keep` makes of the first
`n` lines. -/
theorem uniqLoop_eq (str : P → CStr) (items : List P) {n : ℕ} (hn : n ≤ items.length) :
    ∃ st, (List.range n).foldlM (uniqStep str) ⟨items, 0, []⟩ = some st ∧
      (st.items.take st.w, st.freed) = (items.take n).foldl (keep str) ([], []) ∧
      st.w ≤ n ∧ st.items.length = items.length ∧ st.items.drop n = items.drop n := by
  induction n with
  | zero => exact ⟨⟨items, 0, []⟩, by simp, by simp, le_rfl, rfl, rfl⟩
  | succ n ih =>
    obtain ⟨st, hloop, hkf, hw, hlen, hdrop⟩ := ih (Nat.le_of_succ_le hn)
    have hline : st.items[n]? = some items[n] := by
      rw [← List.head?_drop, hdrop, List.head?_drop, List.getElem?_eq_getElem]
    obtain ⟨st', hstep, hkf', hw', hlen', hdrop'⟩ := uniqStep_eq str hline hw
    refine ⟨st', ?_, ?_, hw', hlen'.trans hlen, ?_⟩
    · rw [List.range_succ, List.foldlM_append, hloop]
      simpa using hstep
    · rw [hkf', hkf, List.take_succ_eq_append_getElem hn, List.foldl_append]
      rfl
    · rw [hdrop', ← List.drop_drop, hdrop, List.drop_drop]

/-- **`line_vec_uniq` stays inside the vector**; what it keeps and frees is what
`keep` makes of the lines, one after the other. -/
theorem lineVecUniq_eq (str : P → CStr) (vec : LineVec P) :
    lineVecUniq str vec = some
      ({ vec with items := (vec.items.foldl (keep str) ([], [])).1 },
        (vec.items.foldl (keep str) ([], [])).2) := by
  obtain ⟨st, hloop, hkf, -⟩ := uniqLoop_eq str vec.items le_rfl
  rw [List.take_length] at hkf
  simp only [lineVecUniq, hloop, ← hkf]
  rfl

/-- Everything `keep` does: it frees a line equal to the last one kept. -/
theorem keep_cases (str : P → CStr) (kf : List P × List P) (line : P) :
    (∃ last, kf.1.getLast? = some last ∧ str last = str line ∧
      keep str kf line = (kf.1, kf.2 ++ [line])) ∨
    ((∀ last, kf.1.getLast? = some last → str last ≠ str line) ∧
      keep str kf line = (kf.1 ++ [line], kf.2)) := by
  unfold keep
  split
  · next hdup =>
    obtain ⟨last, hlast, heq⟩ := (Option.any_eq_true _ _).mp hdup
    rw [decide_eq_true_eq, strcmp_eq_eq_iff] at heq
    exact Or.inl ⟨last, hlast, heq.symm, rfl⟩
  · next hnew =>
    refine Or.inr ⟨fun last hlast heq => hnew ?_, rfl⟩
    rw [Option.any_eq_true]
    exact ⟨last, hlast, by simp [(strcmp_eq_eq_iff _ _).mpr heq.symm]⟩

/-- No line is lost or handled twice. -/
theorem keep_perm (str : P → CStr) (l : List P) :
    ((l.foldl (keep str) ([], [])).1 ++ (l.foldl (keep str) ([], [])).2).Perm l := by
  induction l using List.reverseRecOn with
  | nil => simp
  | append_singleton l x ih =>
    rw [List.foldl_append, List.foldl_cons, List.foldl_nil]
    generalize l.foldl (keep str) ([], []) = kf at ih ⊢
    rcases keep_cases str kf x with ⟨last, -, -, hkeep⟩ | ⟨-, hkeep⟩
    · rw [hkeep, ← List.append_assoc]
      exact ih.append_right [x]
    · rw [hkeep, List.append_assoc]
      apply (List.Perm.append_left _ List.perm_append_comm).trans
      rw [← List.append_assoc]
      exact ih.append_right [x]

/-- A line freed is equal to a line kept. -/
theorem keep_mem (str : P → CStr) (l : List P) :
    ∀ x ∈ l, ∃ y ∈ (l.foldl (keep str) ([], [])).1, str y = str x := by
  induction l using List.reverseRecOn with
  | nil => simp
  | append_singleton l x ih =>
    rw [List.foldl_append, List.foldl_cons, List.foldl_nil]
    generalize l.foldl (keep str) ([], []) = kf at ih ⊢
    intro z hz
    rw [List.mem_append, List.mem_singleton] at hz
    rcases keep_cases str kf x with ⟨last, hlast, heq, hkeep⟩ | ⟨-, hkeep⟩
    · rw [hkeep]
      rcases hz with hz | rfl
      · exact ih z hz
      · exact ⟨last, List.mem_of_getLast? hlast, heq⟩
    · rw [hkeep]
      rcases hz with hz | rfl
      · obtain ⟨y, hy, heq⟩ := ih z hz
        exact ⟨y, List.mem_append_left _ hy, heq⟩
      · exact ⟨z, by simp, rfl⟩

/-- Of sorted lines, those kept are strictly increasing. -/
theorem keep_strict {str : P → CStr} {l : List P} (h : l.Pairwise fun a b => str a ≤ str b) :
    (l.foldl (keep str) ([], [])).1.Pairwise fun a b => str a < str b := by
  induction l using List.reverseRecOn with
  | nil => simp
  | append_singleton l x ih =>
    have hmem : ∀ y ∈ (l.foldl (keep str) ([], [])).1, y ∈ l := fun y hy =>
      (keep_perm str l).subset (List.mem_append_left _ hy)
    obtain ⟨hl, -, hle⟩ := List.pairwise_append.mp h
    have hkept := ih hl
    rw [List.foldl_append, List.foldl_cons, List.foldl_nil]
    generalize l.foldl (keep str) ([], []) = kf at hkept hmem ⊢
    rcases keep_cases str kf x with ⟨last, -, -, hkeep⟩ | ⟨hnew, hkeep⟩
    · rw [hkeep]
      exact hkept
    · rw [hkeep]
      refine List.pairwise_append.mpr ⟨hkept, List.pairwise_singleton _ _, ?_⟩
      intro y hy z hz
      rw [List.mem_singleton] at hz
      subst hz
      -- `y` is at most the last line kept, and that one differs from `z`
      obtain ⟨last, hlast⟩ : ∃ last, kf.1.getLast? = some last :=
        Option.isSome_iff_exists.mp (by simpa [List.getLast?_isSome] using List.ne_nil_of_mem hy)
      have hlastmem : last ∈ kf.1 := List.mem_of_getLast? hlast
      have hlt : str last < str z :=
        lt_of_le_of_ne (hle last (hmem last hlastmem) z (by simp)) (hnew last hlast)
      refine lt_of_le_of_lt ?_ hlt
      obtain ⟨init, hinit⟩ : ∃ init, kf.1 = init ++ [last] := by
        rw [List.getLast?_eq_some_iff] at hlast
        exact hlast
      rw [hinit] at hy hkept
      rw [List.mem_append, List.mem_singleton] at hy
      rcases hy with hy | rfl
      · exact ((List.pairwise_append.mp hkept).2.2 y hy last (by simp)).le
      · exact le_rfl

/-- **What a worker's vector holds after its sort and its removal of duplicates**:
lines that were there before, in strictly increasing order, and among them one
for each string that was there. -/
theorem lineVecUniq_sort {str : P → CStr} (qsort : Qsort P (compareLines str))
    {vec vec' : LineVec P} {freed : List P}
    (h : lineVecUniq str (lineVecSort qsort vec) = some (vec', freed)) :
    (vec'.items.Pairwise fun a b => str a < str b) ∧ (∀ x ∈ vec'.items, x ∈ vec.items) ∧
      ∀ x ∈ vec.items, ∃ y ∈ vec'.items, str y = str x := by
  rw [lineVecUniq_eq] at h
  obtain ⟨rfl, rfl⟩ := Prod.ext_iff.mp (Option.some.inj h)
  have hperm := lineVecSort_perm qsort vec
  refine ⟨keep_strict (lineVecSort_ordered qsort vec), ?_, ?_⟩
  · intro x hx
    exact hperm.subset ((keep_perm str _).subset (List.mem_append_left _ hx))
  · intro x hx
    exact keep_mem str _ x (hperm.symm.subset hx)

/-- An element of a list without repetitions is at one position. -/
theorem existsUnique_getElem?_of_nodup {l : List P} (hl : l.Nodup) {x : P} (hx : x ∈ l) :
    ∃! i : ℕ, l[i]? = some x := by
  obtain ⟨i, hi, rfl⟩ := List.getElem_of_mem hx
  refine ⟨i, List.getElem?_eq_getElem hi, ?_⟩
  intro j hj
  obtain ⟨hjlt, heq⟩ := List.getElem?_eq_some_iff.mp hj
  exact (List.Nodup.getElem_inj_iff hl).mp heq

/-- Of pointers that are all different, each is kept at one position or freed once. -/
theorem kept_or_freed_once {vec kept freed : List P} (hperm : (kept ++ freed).Perm vec)
    (hvec : vec.Nodup) {x : P} (hx : x ∈ vec) :
    ((∃! i : ℕ, kept[i]? = some x) ∧ x ∉ freed) ∨ (x ∉ kept ∧ ∃! i : ℕ, freed[i]? = some x) := by
  obtain ⟨hkept, hfreed, hdisj⟩ := List.nodup_append.mp (hperm.nodup_iff.mpr hvec)
  rcases List.mem_append.mp (hperm.mem_iff.mpr hx) with hmem | hmem
  · exact Or.inl ⟨existsUnique_getElem?_of_nodup hkept hmem, fun h => hdisj x hmem x h rfl⟩
  · exact Or.inr ⟨fun h => hdisj x h x hmem rfl, existsUnique_getElem?_of_nodup hfreed hmem⟩

/-- **A sort and the removal of duplicates leave the sorted set of the strings.**
Every pointer is kept or freed, and if the pointers are all different each is kept
at one position or freed once; the write index is never ahead of the read index. -/
theorem lineVecUniq_sorted_set {str : P → CStr} (qsort : Qsort P (compareLines str))
    (vec : LineVec P) :
    ∃ vec' freed, lineVecUniq str (lineVecSort qsort vec) = some (vec', freed) ∧
      (vec'.items.Pairwise fun a b => compareLines str a b = .lt) ∧
      (∀ s, (∃ line ∈ vec'.items, str line = s) ↔ ∃ line ∈ vec.items, str line = s) ∧
      (vec'.items ++ freed).Perm vec.items ∧
      (vec.items.Nodup → ∀ line ∈ vec.items,
        ((∃! i : ℕ, vec'.items[i]? = some line) ∧ line ∉ freed) ∨
        (line ∉ vec'.items ∧ ∃! i : ℕ, freed[i]? = some line)) ∧
      ∀ r ≤ vec.items.length, ∃ st, (List.range r).foldlM (uniqStep str)
        ⟨(lineVecSort qsort vec).items, 0, []⟩ = some st ∧ st.w ≤ r := by
  have hrun := lineVecUniq_eq str (lineVecSort qsort vec)
  have hsorted := lineVecSort_perm qsort vec
  have hperm := (keep_perm str (lineVecSort qsort vec).items).trans hsorted
  obtain ⟨hstrict, hsub, hall⟩ := lineVecUniq_sort qsort hrun
  refine ⟨_, _, hrun, ?_, fun s => ⟨?_, ?_⟩, hperm,
    fun hnodup _ hline => kept_or_freed_once hperm hnodup hline, ?_⟩
  · exact hstrict.imp fun h => (strcmp_eq_lt_iff _ _).mpr h
  · rintro ⟨line, hline, rfl⟩
    exact ⟨line, hsub line hline, rfl⟩
  · rintro ⟨line, hline, rfl⟩
    exact hall line hline
  · intro r hr
    rw [← hsorted.length_eq] at hr
    obtain ⟨st, hloop, -, hw, -⟩ := uniqLoop_eq str _ hr
    exact ⟨st, hloop, hw⟩

/-- Three lines of two strings. -/
theorem lineVecUniq_sorted_set_three :
    let lines := [(0, CStr.lit "b"), (1, CStr.lit "a"), (2, CStr.lit "b")]
    ∃ vec' freed, lineVecUniq Prod.snd (lineVecSort (Qsort.mergeSort Prod.snd) ⟨lines, 4⟩)
        = some (vec', freed) ∧
      ∀ line ∈ lines, ((∃! i : ℕ, vec'.items[i]? = some line) ∧ line ∉ freed) ∨
        (line ∉ vec'.items ∧ ∃! i : ℕ, freed[i]? = some line) := by
  intro lines
  obtain ⟨vec', freed, hrun, -, -, -, honce, -⟩ :=
    lineVecUniq_sorted_set (Qsort.mergeSort Prod.snd) ⟨lines, 4⟩
  exact ⟨vec', freed, hrun, honce (by decide)⟩

end Tsag
