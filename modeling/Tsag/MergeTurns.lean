import Tsag.Lib.Transition
import Tsag.Merge

/-!
# The merge, turn by turn

Every turn of the two loops of `merge` finds at most one entry of each batch in the
heap, so the heap never holds more entries than there are batches and its array,
with a place for each batch, has room for every push.

## Main definitions

* `drainStep` — one turn of the second loop.
* `MergeState`, `mergeLts` — the states between the turns, and the turns.
* `EntriesWf` — the invariant: the heap, with at most one entry of each batch.

## Main results

* `mergeDrain_succ`, `merge_exec` — `merge` takes these turns.
* `populateStep_spec`, `drainStep_spec` — no turn leaves the arrays.
* `merge_k_way` — the merge of sorted batches, and what holds at every turn.
-/

namespace Tsag

open MinHeap

variable {P : Type}

section Code

variable (str : P → CStr) (batches : List (LineVec P))

/-- One turn of the loop that writes the lines, `some none` when the heap is empty. -/
def drainStep (heap : List HeapEntry) (size : ℕ) (out : List P) :
    Option (Option (List HeapEntry × ℕ × List P)) := do
  match ← heapPop str batches heap size with
  | none => return none
  | some (entry, heap, size) =>
      let line ← entry.line batches
      let vec ← batches[entry.batch]?
      if entry.idx + 1 < vec.items.length then
        let (heap, size) ← heapPush str batches heap size ⟨entry.batch, entry.idx + 1⟩
        return some (heap, size, out ++ [line])
      else
        return some (heap, size, out ++ [line])

/-- The second loop takes its turns one after the other. -/
theorem mergeDrain_succ (fuel : ℕ) (heap : List HeapEntry) (size : ℕ) (out : List P) :
    mergeDrain str batches (fuel + 1) heap size out
      = (drainStep str batches heap size out).bind fun turn =>
          turn.elim (some out) fun st => mergeDrain str batches fuel st.1 st.2.1 st.2.2 := by
  rw [mergeDrain, drainStep]
  cases heapPop str batches heap size with
  | none => rfl
  | some popped =>
    cases popped with
    | none => rfl
    | some popped =>
      obtain ⟨entry, heap', size'⟩ := popped
      simp only [Option.bind_eq_bind, Option.bind_some]
      cases entry.line batches with
      | none => rfl
      | some line =>
        cases batches[entry.batch]? with
        | none => rfl
        | some vec =>
          simp only [Option.bind_some]
          split
          · cases heapPush str batches heap' size' ⟨entry.batch, entry.idx + 1⟩ <;> rfl
          · rfl

end Code

/-- Where `merge` is: before turn `i` of its first loop, or before a turn of its second
with `out` written. -/
inductive MergeState (P : Type)
  | populate (i : ℕ) (heap : List HeapEntry) (size : ℕ)
  | drain (heap : List HeapEntry) (size : ℕ) (out : List P)

/-- The array of the heap. -/
def MergeState.heap : MergeState P → List HeapEntry
  | populate _ heap _ => heap
  | drain heap _ _ => heap

/-- `heap_size`. -/
def MergeState.size : MergeState P → ℕ
  | populate _ _ size => size
  | drain _ size _ => size

/-- One turn of a loop, or the passage from the first to the second. -/
inductive MergeTurn (str : P → CStr) (batches : List (LineVec P)) :
    MergeState P → MergeState P → Prop
  | enter {i size size' : ℕ} {heap heap' : List HeapEntry} (hi : i < batches.length)
      (h : populateStep str batches (heap, size) i = some (heap', size')) :
      MergeTurn str batches (.populate i heap size) (.populate (i + 1) heap' size')
  | filled {heap : List HeapEntry} {size : ℕ} :
      MergeTurn str batches (.populate batches.length heap size) (.drain heap size [])
  | write {size size' : ℕ} {heap heap' : List HeapEntry} {out out' : List P}
      (h : drainStep str batches heap size out = some (some (heap', size', out'))) :
      MergeTurn str batches (.drain heap size out) (.drain heap' size' out')

/-- The turns of `merge` over an array as it is found. -/
def mergeLts (str : P → CStr) (batches : List (LineVec P)) (heap : List HeapEntry) :
    Lts (MergeState P) Unit where
  Init st := st = .populate 0 heap 0
  Step st _ st' := MergeTurn str batches st st'

section Turns

variable {str : P → CStr} {batches : List (LineVec P)}

/-! ### `merge` takes these turns -/

theorem populate_run (heap : List HeapEntry) {n : ℕ} (hn : n ≤ batches.length) :
    ∀ {heap' : List HeapEntry} {size : ℕ},
      (List.range n).foldlM (populateStep str batches) (heap, 0) = some (heap', size) →
      ∃ tr, (mergeLts str batches heap).Run (.populate 0 heap 0) tr (.populate n heap' size) := by
  induction n with
  | zero =>
    intro heap' size h
    obtain ⟨rfl, rfl⟩ : heap = heap' ∧ 0 = size := by simpa using h
    exact ⟨[], .nil⟩
  | succ n ih =>
    intro heap' size h
    rw [List.range_succ, List.foldlM_append, Option.bind_eq_bind, Option.bind_eq_some_iff] at h
    obtain ⟨⟨heap₁, size₁⟩, hrun, hlast⟩ := h
    obtain ⟨tr, hrun⟩ := ih (Nat.le_of_succ_le hn) hrun
    have hstep : populateStep str batches (heap₁, size₁) n = some (heap', size) := by
      simpa using hlast
    exact ⟨tr ++ [()], hrun.snoc (.enter hn hstep)⟩

theorem size_eq_zero_of_drainStep {heap : List HeapEntry} {size : ℕ} {out : List P}
    (h : drainStep str batches heap size out = some none) : size = 0 := by
  by_contra hsize
  simp only [drainStep, heapPop, if_neg hsize, Option.bind_eq_bind, Option.bind_eq_some_iff] at h
  obtain ⟨popped, ⟨_, -, _, -, _, -, hpopped⟩, h⟩ := h
  obtain rfl := Option.some.inj hpopped
  simp only [Option.bind_eq_some_iff] at h
  obtain ⟨_, -, vec, -, h⟩ := h
  split at h
  · obtain ⟨_, -, h⟩ := Option.bind_eq_some_iff.mp h
    cases h
  · cases h

theorem drain_run (heap₀ : List HeapEntry) (fuel : ℕ) :
    ∀ {heap : List HeapEntry} {size : ℕ} {out out' : List P},
    mergeDrain str batches fuel heap size out = some out' →
    ∃ tr heap', (mergeLts str batches heap₀).Run (.drain heap size out) tr
      (.drain heap' 0 out') := by
  induction fuel with
  | zero =>
    intro heap size out out' h
    cases h
  | succ fuel ih =>
    intro heap size out out' h
    rw [mergeDrain_succ, Option.bind_eq_some_iff] at h
    obtain ⟨turn, hturn, h⟩ := h
    cases turn with
    | none =>
      obtain rfl := Option.some.inj h
      obtain rfl := size_eq_zero_of_drainStep hturn
      exact ⟨[], heap, .nil⟩
    | some st =>
      obtain ⟨tr, heap', hrun⟩ := ih h
      have hstep : (mergeLts str batches heap₀).Step (.drain heap size out) ()
          (.drain st.1 st.2.1 st.2.2) := MergeTurn.write hturn
      exact ⟨[()] ++ tr, heap', (Lts.Run.single hstep).append hrun⟩

/-- **The lines `merge` writes are those its turns have written at the end.** -/
theorem merge_exec {heap : List HeapEntry} {out : List P}
    (h : merge str batches heap = some out) :
    ∃ tr heap', (mergeLts str batches heap).Exec tr (.drain heap' 0 out) := by
  simp only [merge, Option.bind_eq_bind, Option.bind_eq_some_iff] at h
  obtain ⟨⟨heap₁, size⟩, hpopulate, hdrain⟩ := h
  obtain ⟨tr, hfirst⟩ := populate_run heap le_rfl hpopulate
  obtain ⟨tr', heap', hsecond⟩ := drain_run heap _ hdrain
  exact ⟨tr ++ [()] ++ tr', heap', _, rfl, (hfirst.snoc .filled).append hsecond⟩

/-! ### At most one entry of each batch -/

/-- The heap of `merge`: an array of `n` places, the heap in the first of them, and no
two entries of one batch. -/
structure EntriesWf (str : P → CStr) (batches : List (LineVec P)) (n : ℕ)
    (heap : List HeapEntry) (size : ℕ) : Prop where
  length_eq : heap.length = n
  wf : HeapWf str batches heap size
  nodup : ((contents (entryAt heap) size).map HeapEntry.batch).Nodup

/-- Entries of different batches are as few as the batches. -/
theorem EntriesWf.size_le {n b : ℕ} {heap : List HeapEntry} {size : ℕ}
    (h : EntriesWf str batches n heap size)
    (hb : ∀ e ∈ contents (entryAt heap) size, e.batch < b) : size ≤ b := by
  have hsub : (contents (entryAt heap) size).map HeapEntry.batch ≤ Multiset.range b := by
    rw [Multiset.le_iff_subset h.nodup]
    intro i hi
    obtain ⟨e, he, rfl⟩ := Multiset.mem_map.mp hi
    exact Multiset.mem_range.mpr (hb e he)
  simpa [contents] using Multiset.card_le_card hsub

theorem EntriesWf.batch_lt {n : ℕ} {heap : List HeapEntry} {size : ℕ}
    (h : EntriesWf str batches n heap size) :
    ∀ e ∈ contents (entryAt heap) size, e.batch < batches.length := by
  intro e he
  obtain ⟨vec, -, hvec, -⟩ := (h.wf.in_range e he).exists_vec
  exact (List.getElem?_eq_some_iff.mp hvec).1

/-- **A turn of the first loop stays inside the array** and enters a batch that has no
entry yet. -/
theorem populateStep_spec {n i size : ℕ} {heap : List HeapEntry} (hroom : batches.length ≤ n)
    (hi : i < batches.length) (h : EntriesWf str batches n heap size)
    (hlt : ∀ e ∈ contents (entryAt heap) size, e.batch < i) :
    ∃ heap' size', populateStep str batches (heap, size) i = some (heap', size') ∧
      EntriesWf str batches n heap' size' ∧
      ∀ e ∈ contents (entryAt heap') size', e.batch < i + 1 := by
  have hvec : batches[i]? = some batches[i] := List.getElem?_eq_getElem hi
  by_cases hempty : batches[i].items.length > 0
  · have hentry : (⟨i, 0⟩ : HeapEntry).InRange batches := by
      simpa [HeapEntry.InRange, HeapEntry.line, hvec] using hempty
    have hsize := h.size_le hlt
    have hlen := h.length_eq
    obtain ⟨heap', hpush, hlen', hwf', hcontents⟩ := heapPush_spec h.wf (by omega) hentry
    refine ⟨heap', size + 1, by simp [populateStep, hvec, hempty, hpush],
      ⟨hlen'.trans hlen, hwf', ?_⟩, ?_⟩
    · rw [hcontents, Multiset.map_cons, Multiset.nodup_cons]
      refine ⟨?_, h.nodup⟩
      intro hmem
      obtain ⟨e, he, heq⟩ := Multiset.mem_map.mp hmem
      exact absurd heq (hlt e he).ne
    · intro e he
      rw [hcontents, Multiset.mem_cons] at he
      rcases he with rfl | he
      · exact Nat.lt_succ_self i
      · exact (hlt e he).trans (Nat.lt_succ_self i)
  · refine ⟨heap, size, by simp [populateStep, hvec, hempty], h, ?_⟩
    intro e he
    exact (hlt e he).trans (Nat.lt_succ_self i)

/-- **A turn of the second loop stays inside the array**: it puts the next entry of a
batch in the place of the one it takes out. -/
theorem drainStep_spec {n size : ℕ} {heap : List HeapEntry} (out : List P)
    (h : EntriesWf str batches n heap (size + 1)) :
    ∃ heap' size' line, drainStep str batches heap (size + 1) out
        = some (some (heap', size', out ++ [line])) ∧
      EntriesWf str batches n heap' size' := by
  obtain ⟨e, heap₁, hpop, hlen₁, hwf₁, hcontents, -⟩ := heapPop_spec h.wf
  have hin : e.InRange batches := h.wf.in_range e (hcontents ▸ Multiset.mem_cons_self _ _)
  obtain ⟨vec, line, hvec, hitem, hline⟩ := hin.exists_vec
  have hnodup := h.nodup
  rw [← hcontents, Multiset.map_cons] at hnodup
  by_cases hnext : e.idx + 1 < vec.items.length
  · have hroom : size < heap₁.length := by
      have hle := h.wf.size_le
      omega
    obtain ⟨heap₂, hpush, hlen₂, hwf₂, hcontents₂⟩ :=
      heapPush_spec hwf₁ hroom ((HeapEntry.next_inRange hvec).mpr hnext)
    refine ⟨heap₂, size + 1, line, ?_, hlen₂.trans (hlen₁.trans h.length_eq), hwf₂, ?_⟩
    · rw [HeapEntry.next] at hpush
      simp [drainStep, hpop, hline, hvec, hnext, hpush]
    · rw [hcontents₂, Multiset.map_cons]
      exact hnodup
  · refine ⟨heap₁, size, line, ?_, hlen₁.trans h.length_eq, hwf₁, ?_⟩
    · simp [drainStep, hpop, hline, hvec, hnext]
    · exact (Multiset.nodup_cons.mp hnodup).2

/-- The invariant of the turns: before turn `i` of the first loop no batch from `i` on
has been entered. -/
def MergeInv (str : P → CStr) (batches : List (LineVec P)) (n : ℕ) : MergeState P → Prop
  | .populate i heap size => i ≤ batches.length ∧ EntriesWf str batches n heap size ∧
      ∀ e ∈ contents (entryAt heap) size, e.batch < i
  | .drain heap size _ => EntriesWf str batches n heap size

theorem MergeInv.entriesWf {n : ℕ} {st : MergeState P} (h : MergeInv str batches n st) :
    EntriesWf str batches n st.heap st.size := by
  cases st with
  | populate i heap size => exact h.2.1
  | drain heap size out => exact h

theorem MergeInv.step {n : ℕ} {st st' : MergeState P} (hroom : batches.length ≤ n)
    (h : MergeInv str batches n st) (hs : MergeTurn str batches st st') :
    MergeInv str batches n st' := by
  cases hs with
  | enter hi hturn =>
    obtain ⟨-, hwf, hlt⟩ := h
    obtain ⟨heap', size', hturn', hwf', hlt'⟩ := populateStep_spec hroom hi hwf hlt
    rw [hturn, Option.some.injEq, Prod.mk.injEq] at hturn'
    obtain ⟨rfl, rfl⟩ := hturn'
    exact ⟨hi, hwf', hlt'⟩
  | filled => exact h.2.1
  | @write size _ _ _ out _ hturn =>
    cases size with
    | zero => simp [drainStep, heapPop] at hturn
    | succ size =>
      obtain ⟨heap', size', line, hturn', hwf'⟩ := drainStep_spec out h
      rw [hturn, Option.some.injEq, Option.some.injEq, Prod.mk.injEq, Prod.mk.injEq] at hturn'
      obtain ⟨rfl, rfl, -⟩ := hturn'
      exact hwf'

theorem mergeInv_reachable {heap : List HeapEntry} (hroom : batches.length ≤ heap.length)
    {st : MergeState P} (h : (mergeLts str batches heap).Reachable st) :
    MergeInv str batches heap.length st := by
  refine h.invariant (I := MergeInv str batches heap.length) ?_ fun st _ st' hinv hs =>
    hinv.step hroom hs
  rintro st rfl
  refine ⟨Nat.zero_le _, ⟨rfl, ⟨Nat.zero_le _, ?_, ?_⟩, ?_⟩, ?_⟩
  · simp [contents]
  · intro i _ hi
    exact absurd hi (Nat.not_lt_zero i)
  · simp [contents]
  · simp [contents]

/-- Where the invariant holds, a turn is to be had until everything is written. -/
theorem MergeInv.canStep {heap : List HeapEntry} (hroom : batches.length ≤ heap.length)
    {st : MergeState P} (h : MergeInv str batches heap.length st)
    (hst : ∀ heap' out, st ≠ .drain heap' 0 out) : (mergeLts str batches heap).CanStep st := by
  cases st with
  | populate i heap₁ size =>
    obtain ⟨hi, hwf, hlt⟩ := h
    rcases hi.lt_or_eq with hi | rfl
    · obtain ⟨heap', size', hturn, -⟩ := populateStep_spec hroom hi hwf hlt
      exact ⟨(), _, .enter hi hturn⟩
    · exact ⟨(), _, .filled⟩
  | drain heap₁ size out =>
    cases size with
    | zero => exact absurd rfl (hst heap₁ out)
    | succ size =>
      obtain ⟨heap', size', line, hturn, -⟩ := drainStep_spec out h
      exact ⟨(), _, .write hturn⟩

/-! ### The merge of sorted batches -/

theorem allLines_eq_flatMap (batches : List (LineVec P)) :
    allLines batches = (batches.flatMap LineVec.items : List P) := by
  induction batches with
  | nil => rfl
  | cons vec batches ih =>
    rw [List.flatMap_cons, ← Multiset.coe_add, ← ih]
    simp [allLines]

variable (str batches) in
/-- **`merge` is a k-way merge.**  Sorted batches, no more of them than the heap's array
has places, are merged into one sorted permutation of their lines; before every
turn of either loop the heap holds at most one entry of each batch, of a line that
is there, and until all is written the next turn stays inside the arrays. -/
theorem merge_k_way (heap : List HeapEntry) (hroom : batches.length ≤ heap.length)
    (hsorted : ∀ vec ∈ batches, vec.items.Pairwise fun a b => compareLines str a b ≠ .gt) :
    (∃ out, merge str batches heap = some out ∧
      (∃ tr heap', (mergeLts str batches heap).Exec tr (.drain heap' 0 out)) ∧
      (out.Pairwise fun a b => compareLines str a b ≠ .gt) ∧
      out.Perm (batches.flatMap LineVec.items)) ∧
    ∀ st, (mergeLts str batches heap).Reachable st →
      st.heap.length = heap.length ∧ st.size ≤ batches.length ∧
      ((st.heap.take st.size).map HeapEntry.batch).Nodup ∧
      (∀ e ∈ st.heap.take st.size,
        ∃ vec, batches[e.batch]? = some vec ∧ e.idx < vec.items.length) ∧
      ((∃ heap' out, st = .drain heap' 0 out) ∨ (mergeLts str batches heap).CanStep st) := by
  constructor
  · have hle : ∀ vec ∈ batches, vec.items.Pairwise fun a b => str a ≤ str b := fun vec hvec =>
      (hsorted vec hvec).imp fun h => (strcmp_ne_gt_iff _ _).mp h
    obtain ⟨out, hout, hordered, hlines⟩ := merge_spec hle heap hroom
    refine ⟨out, hout, merge_exec hout,
      hordered.imp fun h => (strcmp_ne_gt_iff _ _).mpr h, ?_⟩
    rwa [allLines_eq_flatMap, Multiset.coe_eq_coe] at hlines
  · intro st hst
    have hinv := mergeInv_reachable hroom hst
    have hentries := hinv.entriesWf
    have hcontents := contents_eq_take hentries.wf.size_le
    refine ⟨hentries.length_eq, hentries.size_le hentries.batch_lt, ?_, ?_, ?_⟩
    · have hnodup := hentries.nodup
      rwa [hcontents, Multiset.map_coe, Multiset.coe_nodup] at hnodup
    · intro e he
      have hin := hentries.wf.in_range e (by rwa [hcontents, Multiset.mem_coe])
      obtain ⟨vec, line, hvec, hitem, -⟩ := hin.exists_vec
      exact ⟨vec, hvec, (List.getElem?_eq_some_iff.mp hitem).1⟩
    · by_cases hdone : ∃ heap' out, st = .drain heap' 0 out
      · exact Or.inl hdone
      · refine Or.inr (hinv.canStep hroom fun heap' out heq => hdone ⟨heap', out, heq⟩)

/-- Three batches, one empty and two with a line in common, and a place to spare. -/
theorem merge_k_way_three :
    let batches := [⟨[CStr.lit "a", CStr.lit "b"], 2⟩, ⟨[], 1⟩, ⟨[CStr.lit "b"], 1⟩]
    ∃ out, merge id batches (List.replicate 4 ⟨0, 0⟩) = some out ∧
      out.Perm [CStr.lit "a", CStr.lit "b", CStr.lit "b"] := by
  intro batches
  obtain ⟨⟨out, hout, -, -, hperm⟩, -⟩ :=
    merge_k_way id batches (List.replicate 4 ⟨0, 0⟩) (by decide) (by decide)
  exact ⟨out, hout, hperm⟩

end Turns

end Tsag
