import Mathlib.Algebra.BigOperators.Fin
import Mathlib.Data.Finset.Sort
import Mathlib.Data.List.FinRange
import Mathlib.Data.List.NodupEquivFin
import Tsag.Lib.Census
import Tsag.TagsFile

/-!
# The tags file and the schedule

Which worker takes which path, and in which order the vectors reach the merge
thread, is up to the scheduler.  Duplicate lines are dropped by each worker among
its own lines only, so the schedule can show where a path is enqueued twice.

## Main definitions

* `FileLines` — the lines each file contributes.
* `Schedule` — who takes what, and the order of the vectors.
* `tagsFile` — the bytes `merge` writes, and `Schedule.tagsFile` under a schedule.
* `canonicalLines` — the set of all lines in order; `ScheduleIndependent` — it is
  what every schedule writes.

## Main results

* `Schedule.tagsFile_eq` — what is written holds each line once for each worker that has it.
* `scheduleIndependent_iff` — exactly when the schedule does not show.
-/

namespace Tsag

/-- The lines the files contribute, as a function of the path. -/
structure FileLines where
  lines : CStr → List CStr
  built : ∀ path, ∀ line ∈ lines path, TagLine path line

/-- What the scheduler decides in an execution on these paths. -/
structure Schedule (paths : List CStr) where
  jobs : ℕ
  jobs_pos : 1 ≤ jobs
  /-- The worker that takes a path from the work queue. -/
  who : Fin paths.length → Fin jobs
  /-- The order in which the merge thread collects the workers' vectors. -/
  order : List (Fin jobs)
  order_perm : order.Perm (List.finRange jobs)
  /-- The slots allocated for each worker's vector. -/
  cap : Fin jobs → ℕ
  /-- The merge thread's array, as it is found. -/
  heap : List HeapEntry
  length_heap : heap.length = jobs

variable {paths : List CStr}

/-- The paths worker `w` takes, in order. -/
def Schedule.taken (s : Schedule paths) (w : Fin s.jobs) : List CStr :=
  ((List.finRange paths.length).filter fun k => s.who k = w).map paths.get

/-- The vector a worker that took these paths puts on the merge queue, `cap` being
the slots allocated for it. -/
def workerVec (qsort : Qsort CStr (compareLines id)) (files : FileLines) (taken : List CStr)
    (cap : ℕ) : Option (LineVec CStr) :=
  (lineVecUniq id (lineVecSort qsort ⟨taken.flatMap files.lines, cap⟩)).map Prod.fst

/-- The bytes `merge` writes when the vectors of the workers reach it in this order
and its array is found to be `heap`. -/
def tagsFile {ι : Type} (qsort : Qsort CStr (compareLines id)) (files : FileLines)
    (taken : ι → List CStr) (cap : ι → ℕ) (order : List ι) (heap : List HeapEntry) :
    Option Bytes := do
  let batches ← order.mapM fun w => workerVec qsort files (taken w) (cap w)
  let out ← merge id batches heap
  return out.flatMap CStr.bytes

/-- The bytes `merge` writes under a schedule. -/
def Schedule.tagsFile (qsort : Qsort CStr (compareLines id)) (files : FileLines)
    (s : Schedule paths) : Option Bytes :=
  Tsag.tagsFile qsort files s.taken s.cap s.order s.heap

/-- The set of the lines of all paths, in strictly increasing order. -/
def canonicalLines (files : FileLines) (paths : List CStr) : List CStr :=
  (paths.flatMap files.lines).toFinset.sort

/-- Every schedule writes the canonical lines. -/
def ScheduleIndependent (qsort : Qsort CStr (compareLines id)) (files : FileLines)
    (paths : List CStr) : Prop :=
  ∀ s : Schedule paths,
    s.tagsFile qsort files = some ((canonicalLines files paths).flatMap CStr.bytes)

theorem Schedule.mem_taken {s : Schedule paths} {w : Fin s.jobs} {path : CStr} :
    path ∈ s.taken w ↔ ∃ k, s.who k = w ∧ paths.get k = path := by
  simp [Schedule.taken]

/-- A worker's vector is sorted and holds its files' lines once each. -/
theorem workerVec_eq (qsort : Qsort CStr (compareLines id)) (files : FileLines)
    (taken : List CStr) (cap : ℕ) :
    ∃ vec, workerVec qsort files taken cap = some vec ∧ vec.items.Pairwise (· < ·) ∧
      ∀ line, line ∈ vec.items ↔ line ∈ taken.flatMap files.lines := by
  have huniq := lineVecUniq_eq id (lineVecSort qsort ⟨taken.flatMap files.lines, cap⟩)
  obtain ⟨hstrict, hsub, hmem⟩ := lineVecUniq_sort qsort huniq
  refine ⟨_, by rw [workerVec, huniq]; rfl, hstrict, fun line => ⟨hsub line, ?_⟩⟩
  intro h
  obtain ⟨y, hy, heq⟩ := hmem line h
  exact (show y = line from heq) ▸ hy

theorem mapM_eq_some_map {α β : Type} {f : α → Option β} {g : α → β} (h : ∀ a, f a = some (g a))
    (l : List α) : l.mapM f = some (l.map g) := by
  induction l with
  | nil => rfl
  | cons a l ih => simp [h, ih]

/-- **What is written** under a schedule is sorted, and holds each line once for
each worker that has it. -/
theorem Schedule.tagsFile_eq (qsort : Qsort CStr (compareLines id)) (files : FileLines)
    (s : Schedule paths) :
    ∃ out : List CStr, s.tagsFile qsort files = some (out.flatMap CStr.bytes) ∧
      out.Pairwise (· ≤ ·) ∧ ∀ line, out.count line
        = (Finset.univ.filter fun w => line ∈ (s.taken w).flatMap files.lines).card := by
  choose vec hvec hstrict hmem using fun w => workerVec_eq qsort files (s.taken w) (s.cap w)
  have hbatches := mapM_eq_some_map hvec s.order
  have hsorted : ∀ v ∈ s.order.map vec, v.items.Pairwise fun a b => id a ≤ id b := by
    intro v hv
    obtain ⟨w, -, rfl⟩ := List.mem_map.mp hv
    exact (hstrict w).imp le_of_lt
  have hroom : (s.order.map vec).length ≤ s.heap.length := by
    rw [List.length_map, s.order_perm.length_eq, List.length_finRange, s.length_heap]
  obtain ⟨out, hmerge, horder, hlines⟩ := merge_spec hsorted s.heap hroom
  refine ⟨out, ?_, horder, ?_⟩
  · simp [Schedule.tagsFile, Tsag.tagsFile, hbatches, hmerge]
  intro line
  have hsum : (out : Multiset CStr) = ∑ w, ((vec w).items : Multiset CStr) := by
    rw [hlines, allLines, List.map_map, (s.order_perm.map _).sum_eq, Fin.sum_univ_def]
    rfl
  rw [← Multiset.coe_count, hsum, Multiset.count_sum', Finset.card_filter]
  apply Finset.sum_congr rfl
  intro w _
  have hnodup : (vec w).items.Nodup := (hstrict w).imp fun h => h.ne
  rw [Multiset.coe_count, hnodup.count]
  simp only [hmem w line]

/-! ### When the schedule does not show -/

theorem mem_canonicalLines {files : FileLines} {line : CStr} :
    line ∈ canonicalLines files paths ↔ ∃ path ∈ paths, line ∈ files.lines path := by
  simp [canonicalLines]

/-- A line of a path enqueued once is with one worker. -/
theorem holder_unique {files : FileLines}
    (honce : ∀ path, 1 < paths.count path → files.lines path = []) (s : Schedule paths)
    {line : CStr} {w w' : Fin s.jobs} (h : line ∈ (s.taken w).flatMap files.lines)
    (h' : line ∈ (s.taken w').flatMap files.lines) : w = w' := by
  obtain ⟨path, htaken, hline⟩ := List.mem_flatMap.mp h
  obtain ⟨path', htaken', hline'⟩ := List.mem_flatMap.mp h'
  obtain rfl := (files.built path line hline).path_unique (files.built path' line hline')
  obtain ⟨k, hwho, hk⟩ := Schedule.mem_taken.mp htaken
  obtain ⟨k', hwho', hk'⟩ := Schedule.mem_taken.mp htaken'
  by_contra hne
  -- the two workers took the path from two places of the work queue
  have hkk : k ≠ k' := fun he => hne (hwho.symm.trans ((congrArg s.who he).trans hwho'))
  have hdup : List.Duplicate path paths := by
    rw [List.duplicate_iff_exists_distinct_get]
    rcases lt_or_gt_of_ne hkk with hlt | hlt
    · exact ⟨k, k', hlt, hk.symm, hk'.symm⟩
    · exact ⟨k', k, hlt, hk'.symm, hk.symm⟩
  have hnil := honce path (List.duplicate_iff_two_le_count.mp hdup)
  rw [hnil] at hline
  exact List.not_mem_nil hline

/-- Every line of a path enqueued is with some worker. -/
theorem exists_holder {files : FileLines} (s : Schedule paths) {line : CStr} :
    (∃ w, line ∈ (s.taken w).flatMap files.lines) ↔ line ∈ canonicalLines files paths := by
  rw [mem_canonicalLines]
  simp only [List.mem_flatMap, Schedule.mem_taken]
  exact ⟨fun ⟨_, _, ⟨k, _, hk⟩, hline⟩ => ⟨_, hk ▸ List.get_mem paths k, hline⟩,
    fun ⟨path, hpath, hline⟩ =>
      let ⟨k, hk⟩ := List.get_of_mem hpath
      ⟨s.who k, path, ⟨k, rfl, hk⟩, hline⟩⟩

/-- The lines written are the canonical ones, each at least once. -/
theorem mem_written {files : FileLines} {s : Schedule paths} {out : List CStr} {line : CStr}
    (hcount : out.count line
      = (Finset.univ.filter fun w => line ∈ (s.taken w).flatMap files.lines).card) :
    line ∈ out ↔ line ∈ canonicalLines files paths := by
  rw [← exists_holder s, ← List.count_pos_iff, hcount, Finset.card_pos]
  simp [Finset.Nonempty]

/-- Where no path that has lines is enqueued twice, each schedule writes the
canonical lines. -/
theorem scheduleIndependent_of_once (qsort : Qsort CStr (compareLines id)) {files : FileLines}
    (honce : ∀ path, 1 < paths.count path → files.lines path = []) :
    ScheduleIndependent qsort files paths := by
  intro s
  obtain ⟨out, htags, hsorted, hcount⟩ := s.tagsFile_eq qsort files
  have hnodup : out.Nodup := by
    rw [List.nodup_iff_count_le_one]
    intro line
    rw [hcount line, Finset.card_le_one]
    intro w hw w' hw'
    exact holder_unique honce s (Finset.mem_filter.mp hw).2 (Finset.mem_filter.mp hw').2
  have hmem := fun line => mem_written (hcount line)
  have hperm : out.Perm (canonicalLines files paths) :=
    (List.perm_ext_iff_of_nodup hnodup (Finset.sort_nodup _ _)).mpr hmem
  have heq : out = canonicalLines files paths :=
    hperm.eq_of_pairwise (fun _ _ _ _ => le_antisymm) hsorted (Finset.pairwise_sort _ _)
  rw [htags, heq]

/-! ### When it does -/

/-- Two workers, one of which takes only the path at `k₀`. -/
def Schedule.split (k₀ : Fin paths.length) : Schedule paths where
  jobs := 2
  jobs_pos := by decide
  who k := if k = k₀ then 0 else 1
  order := List.finRange 2
  order_perm := List.Perm.refl _
  cap _ := 128
  heap := [⟨0, 0⟩, ⟨0, 0⟩]
  length_heap := rfl

theorem TagLine.bytes_ne_nil {path line : CStr} (h : TagLine path line) : line.bytes ≠ [] := by
  obtain ⟨⟨rest, hrest⟩, -⟩ := h.nameField_eq
  simp [hrest]

/-- More lines are more bytes. -/
theorem length_flatMap_lt {l l' : List CStr} (hlt : (l : Multiset CStr) < l')
    (hne : ∀ line ∈ l', line.bytes ≠ []) :
    (l.flatMap CStr.bytes).length < (l'.flatMap CStr.bytes).length := by
  obtain ⟨line, hcons⟩ := Multiset.lt_iff_cons_le.mp hlt
  obtain ⟨rest, hrest⟩ := Multiset.le_iff_exists_add.mp hcons
  have hbytes : ∀ l : List CStr,
      (l.flatMap CStr.bytes).length = ((l : Multiset CStr).map fun s => s.bytes.length).sum := by
    intro l
    simp [List.length_flatMap]
  have hline : line ∈ l' := by
    rw [← Multiset.mem_coe, hrest]
    simp
  have hpos := List.length_pos_of_ne_nil (hne line hline)
  rw [hbytes, hbytes, hrest, Multiset.cons_add, Multiset.map_cons, Multiset.sum_cons,
    Multiset.map_add, Multiset.sum_add]
  omega

/-- Where a path with a line is enqueued twice, two workers can write its line twice. -/
theorem exists_split_ne_canonicalLines (qsort : Qsort CStr (compareLines id)) {files : FileLines}
    {path line : CStr} (htwice : 1 < paths.count path) (hline : line ∈ files.lines path) :
    ∃ k, (Schedule.split k : Schedule paths).tagsFile qsort files
      ≠ some ((canonicalLines files paths).flatMap CStr.bytes) := by
  obtain ⟨k, k', hlt, hk, hk'⟩ := List.duplicate_iff_exists_distinct_get.mp
    (List.duplicate_iff_two_le_count.mpr htwice)
  refine ⟨k, ?_⟩
  intro hsame
  obtain ⟨out, htags, -, hcount⟩ := (Schedule.split k).tagsFile_eq qsort files
  have htaken : ∀ w : Fin 2, ∃ i, (if i = k then 0 else 1) = w ∧ paths.get i = path := by
    intro w
    match w with
    | 0 => exact ⟨k, if_pos rfl, hk.symm⟩
    | 1 => exact ⟨k', if_neg hlt.ne', hk'.symm⟩
  -- both workers have the line in their batches
  have hheld : ∀ w, line ∈ ((Schedule.split k).taken w).flatMap files.lines := by
    intro w
    exact List.mem_flatMap.mpr ⟨path, Schedule.mem_taken.mpr (htaken w), hline⟩
  have hmem := fun line => mem_written (hcount line)
  have hnodup : (canonicalLines files paths).Nodup := Finset.sort_nodup _ _
  have hle : (canonicalLines files paths : Multiset CStr) ≤ out :=
    (Multiset.le_iff_subset (Multiset.coe_nodup.mpr hnodup)).mpr fun l hl => (hmem l).mpr hl
  -- so the file has all the lines there are, and one of them once more
  have hmore : (canonicalLines files paths : Multiset CStr) < out := by
    apply lt_of_le_of_ne hle
    intro heq
    have htwo : out.count line = 2 := by
      rw [hcount line, Finset.filter_true_of_mem fun w _ => hheld w, Finset.card_univ,
        Fintype.card_fin]
      rfl
    have hone := List.nodup_iff_count_le_one.mp hnodup line
    have hcounts := congrArg (Multiset.count line) heq
    rw [Multiset.coe_count, Multiset.coe_count, htwo] at hcounts
    omega
  -- and a file that holds more lines is longer
  have hlen := length_flatMap_lt hmore fun l hl => by
    obtain ⟨path, -, hbuilt⟩ := mem_canonicalLines.mp ((hmem l).mp hl)
    exact (files.built path l hbuilt).bytes_ne_nil
  rw [htags] at hsame
  exact absurd (congrArg List.length (Option.some.inj hsame)) hlen.ne'

theorem not_scheduleIndependent (qsort : Qsort CStr (compareLines id)) {files : FileLines}
    {path line : CStr} (htwice : 1 < paths.count path) (hline : line ∈ files.lines path) :
    ¬ ScheduleIndependent qsort files paths := by
  obtain ⟨k, hne⟩ := exists_split_ne_canonicalLines qsort htwice hline
  intro hindep
  exact hne (hindep (Schedule.split k))

/-- **When the schedule does not show**: exactly where no path that is enqueued
more than once has a line. -/
theorem scheduleIndependent_iff (qsort : Qsort CStr (compareLines id)) (files : FileLines)
    (paths : List CStr) :
    ScheduleIndependent qsort files paths ↔
      ∀ path, 1 < paths.count path → files.lines path = [] := by
  refine ⟨?_, scheduleIndependent_of_once qsort⟩
  intro hindep path htwice
  by_contra hne
  obtain ⟨line, hline⟩ := List.exists_mem_of_ne_nil _ hne
  exact not_scheduleIndependent qsort htwice hline hindep

/-- A file with one variable, given twice. -/
theorem scheduleDependent_of_repeated_path :
    ∃ files : FileLines, ¬ ScheduleIndependent (Qsort.mergeSort id) files
      [CStr.lit "a.c", CStr.lit "a.c"] := by
  have hbuilt : ∀ path, ∀ l ∈ (if path = CStr.lit "a.c" then [xLine] else []), TagLine path l := by
    intro path l hl
    split at hl
    · next hpath =>
      obtain rfl := List.mem_singleton.mp hl
      exact hpath ▸ tagLine_xLine
    · cases hl
  refine ⟨⟨_, hbuilt⟩, ?_⟩
  have hmem : xLine ∈ (if CStr.lit "a.c" = CStr.lit "a.c" then [xLine] else []) := by simp
  have htwice : 1 < List.count (CStr.lit "a.c") [CStr.lit "a.c", CStr.lit "a.c"] := by decide
  exact not_scheduleIndependent _ htwice hmem

end Tsag
