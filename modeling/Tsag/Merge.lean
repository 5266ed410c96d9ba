import Mathlib.Algebra.BigOperators.Group.Multiset.Basic
import Mathlib.Algebra.GroupWithZero.Nat
import Tsag.Heap

/-!
# The merge of the batches

The merge thread enters the first line of each batch into its heap and then
writes the least line there is until none is left, each time entering the line
that follows it in its batch.

## Main definitions

* `mergePopulate`, `mergeDrain`, `merge` — the two loops and the lines written.
* `HeapEntry.rest` — the lines of a batch from an entry on.
* `DrainInv` — the invariant of the second loop.

## Main results

* `DrainInv.push`, `DrainInv.last` — a turn of the second loop keeps its invariant.
* `mergePopulate_spec`, `mergeDrain_spec` — the loops end, with all lines written.
* `merge_spec` — sorted batches are merged into one sorted permutation.
-/

namespace Tsag

open MinHeap

variable {P : Type}

section Code

variable (str : P → CStr) (batches : List (LineVec P))

/-- One turn of the loop that enters the first lines. -/
def populateStep (st : List HeapEntry × ℕ) (i : ℕ) : Option (List HeapEntry × ℕ) := do
  let vec ← batches[i]?
  if vec.items.length > 0 then
    heapPush str batches st.1 st.2 ⟨i, 0⟩
  else
    return st

/-- The loop that enters the first lines; `heap` is the array as it is found. -/
def mergePopulate (heap : List HeapEntry) : Option (List HeapEntry × ℕ) :=
  (List.range batches.length).foldlM (populateStep str batches) (heap, 0)

/-- The loop that writes the lines; `out` are those written so far. -/
def mergeDrain : ℕ → List HeapEntry → ℕ → List P → Option (List P)
  | 0, _, _, _ => none
  | fuel + 1, heap, size, out => do
      match ← heapPop str batches heap size with
      | none => return out
      | some (entry, heap, size) =>
          let line ← entry.line batches
          let vec ← batches[entry.batch]?
          if entry.idx + 1 < vec.items.length then
            let (heap, size) ← heapPush str batches heap size ⟨entry.batch, entry.idx + 1⟩
            mergeDrain fuel heap size (out ++ [line])
          else
            mergeDrain fuel heap size (out ++ [line])

/-- The lines `merge` writes, in order; the array of its heap is as it is found. -/
def merge (heap : List HeapEntry) : Option (List P) := do
  let (heap, size) ← mergePopulate str batches heap
  mergeDrain str batches ((batches.map fun vec => vec.items.length).sum + 1) heap size []

end Code

/-! ### What is left to write -/

/-- The lines of the entry's batch from the entry on. -/
def HeapEntry.rest (batches : List (LineVec P)) (e : HeapEntry) : List P :=
  (batches[e.batch]?).elim [] fun vec => vec.items.drop e.idx

/-- The entry of the line after this one. -/
def HeapEntry.next (e : HeapEntry) : HeapEntry := ⟨e.batch, e.idx + 1⟩

/-- The lines still to be written when the entries in the heap are `entries`. -/
def remaining (batches : List (LineVec P)) (entries : Multiset HeapEntry) : Multiset P :=
  (entries.map fun e => (e.rest batches : Multiset P)).sum

/-- The lines of all batches. -/
def allLines (batches : List (LineVec P)) : Multiset P :=
  (batches.map fun vec => (vec.items : Multiset P)).sum

@[simp] theorem remaining_zero (batches : List (LineVec P)) : remaining batches 0 = 0 := rfl

@[simp] theorem remaining_cons (batches : List (LineVec P)) (e : HeapEntry)
    (entries : Multiset HeapEntry) :
    remaining batches (e ::ₘ entries) = e.rest batches + remaining batches entries := by
  simp [remaining]

theorem mem_allLines {batches : List (LineVec P)} {p : P} :
    p ∈ allLines batches ↔ ∃ vec ∈ batches, p ∈ vec.items := by
  induction batches with
  | nil => simp [allLines]
  | cons vec batches ih =>
    have hcons : allLines (vec :: batches) = vec.items + allLines batches := by simp [allLines]
    rw [hcons, Multiset.mem_add, ih]
    simp

theorem card_allLines (batches : List (LineVec P)) :
    (allLines batches).card = (batches.map fun vec => vec.items.length).sum := by
  induction batches with
  | nil => rfl
  | cons vec batches ih =>
    rw [List.map_cons, List.sum_cons, ← ih]
    simp [allLines]

section Rest

variable {str : P → CStr} {batches : List (LineVec P)}

/-- An entry in range stands for a line of a batch that is there. -/
theorem HeapEntry.InRange.exists_vec {e : HeapEntry} (h : e.InRange batches) :
    ∃ vec line, batches[e.batch]? = some vec ∧ vec.items[e.idx]? = some line ∧
      e.line batches = some line := by
  obtain ⟨line, hline⟩ := Option.isSome_iff_exists.mp h
  have hread := hline
  simp only [HeapEntry.line, Option.bind_eq_bind, Option.bind_eq_some_iff] at hread
  obtain ⟨vec, hvec, hitem⟩ := hread
  exact ⟨vec, line, hvec, hitem, hline⟩

theorem HeapEntry.rest_eq {e : HeapEntry} {vec : LineVec P} {line : P}
    (hvec : batches[e.batch]? = some vec) (hitem : vec.items[e.idx]? = some line) :
    e.rest batches = line :: e.next.rest batches := by
  have hlt := (List.getElem?_eq_some_iff.mp hitem).1
  have hget := (List.getElem?_eq_some_iff.mp hitem).2
  simp only [HeapEntry.rest, HeapEntry.next, hvec, Option.elim_some]
  rw [List.drop_eq_getElem_cons hlt, hget]

theorem HeapEntry.next_inRange {e : HeapEntry} {vec : LineVec P}
    (hvec : batches[e.batch]? = some vec) :
    e.next.InRange batches ↔ e.idx + 1 < vec.items.length := by
  simp [HeapEntry.InRange, HeapEntry.line, HeapEntry.next, hvec]

theorem HeapEntry.rest_next_eq_nil {e : HeapEntry} {vec : LineVec P}
    (hvec : batches[e.batch]? = some vec) (hlast : ¬ e.idx + 1 < vec.items.length) :
    e.next.rest batches = [] := by
  simp only [HeapEntry.rest, HeapEntry.next, hvec, Option.elim_some]
  exact List.drop_eq_nil_of_le (Nat.not_lt.mp hlast)

/-- In a sorted batch the next line is no smaller. -/
theorem entryKey_le_next {e : HeapEntry}
    (hsorted : ∀ vec ∈ batches, vec.items.Pairwise fun a b => str a ≤ str b)
    (he : e.InRange batches) (hnext : e.next.InRange batches) :
    entryKey str batches e ≤ entryKey str batches e.next := by
  obtain ⟨vec, line, hvec, hitem, hline⟩ := he.exists_vec
  obtain ⟨vec', line', hvec', hitem', hline'⟩ := hnext.exists_vec
  obtain rfl : vec = vec' := Option.some.inj (hvec.symm.trans hvec')
  obtain ⟨hi, hget⟩ := List.getElem?_eq_some_iff.mp hitem
  obtain ⟨hi', hget'⟩ := List.getElem?_eq_some_iff.mp hitem'
  have hle := List.pairwise_iff_getElem.mp (hsorted vec (List.mem_of_getElem? hvec))
    e.idx (e.idx + 1) hi hi' (Nat.lt_succ_self _)
  rw [hget] at hle
  rw [entryKey, entryKey, hline, hline', Option.elim_some, Option.elim_some]
  exact hle.trans (le_of_eq (congrArg str hget'))

end Rest

/-! ### Entering the first lines -/

section Loops

variable {str : P → CStr} {batches : List (LineVec P)}

variable (str) in
/-- **The first loop stays in bounds** when the array has a place for each batch,
and enters all lines. -/
theorem mergePopulate_spec (heap : List HeapEntry) (hroom : batches.length ≤ heap.length) :
    ∃ heap' size, mergePopulate str batches heap = some (heap', size) ∧
      heap'.length = heap.length ∧ HeapWf str batches heap' size ∧
      remaining batches (contents (entryAt heap') size) = allLines batches := by
  -- after `n` turns the heap has what the first `n` batches have
  have hloop : ∀ n ≤ batches.length, ∃ heap' size,
      (List.range n).foldlM (populateStep str batches) (heap, 0) = some (heap', size) ∧
        heap'.length = heap.length ∧ size ≤ n ∧ HeapWf str batches heap' size ∧
        remaining batches (contents (entryAt heap') size) = allLines (batches.take n) := by
    intro n
    induction n with
    | zero =>
      intro _
      refine ⟨heap, 0, rfl, rfl, le_rfl, ⟨Nat.zero_le _, ?_, ?_⟩, rfl⟩
      · simp [contents]
      · intro i _ hi
        exact absurd hi (Nat.not_lt_zero i)
    | succ n ih =>
      intro hn
      obtain ⟨heap₁, size, hrun, hlen, hsize, hwf, hrest⟩ := ih (Nat.le_of_succ_le hn)
      have hvec : batches[n]? = some batches[n] := List.getElem?_eq_getElem hn
      have hall : allLines (batches.take (n + 1))
          = allLines (batches.take n) + batches[n].items := by
        rw [allLines, List.take_succ_eq_append_getElem hn, List.map_append, List.sum_append]
        simp [allLines]
      rw [List.range_succ, List.foldlM_append, hrun]
      simp only [Option.bind_eq_bind, Option.bind_some, List.foldlM_cons, List.foldlM_nil]
      -- an empty batch has no entry
      by_cases hempty : batches[n].items.length > 0
      · have hentry : (⟨n, 0⟩ : HeapEntry).InRange batches := by
          simpa [HeapEntry.InRange, HeapEntry.line, hvec] using hempty
        obtain ⟨heap₂, hpush, hlen₂, hwf₂, hcontents⟩ := heapPush_spec hwf (by omega) hentry
        refine ⟨heap₂, size + 1, ?_, hlen₂.trans hlen, by omega, hwf₂, ?_⟩
        · simp [populateStep, hvec, hempty, hpush]
        · rw [hcontents, remaining_cons, hrest, hall, add_comm]
          simp [HeapEntry.rest, hvec]
      · refine ⟨heap₁, size, ?_, hlen, by omega, hwf, ?_⟩
        · simp [populateStep, hvec, hempty]
        · have hnil : batches[n].items = [] := by simpa using hempty
          rw [hrest, hall, hnil]
          simp
  obtain ⟨heap', size, hrun, hlen, -, hwf, hrest⟩ := hloop batches.length le_rfl
  rw [List.take_length] at hrest
  exact ⟨heap', size, hrun, hlen, hwf, hrest⟩

/-! ### Writing the lines -/

/-- The invariant of the second loop. -/
structure DrainInv (str : P → CStr) (batches : List (LineVec P)) (heap : List HeapEntry)
    (size : ℕ) (out : List P) : Prop where
  wf : HeapWf str batches heap size
  conserved : (out : Multiset P) + remaining batches (contents (entryAt heap) size)
    = allLines batches
  sorted : out.Pairwise fun a b => str a ≤ str b
  below : ∀ x ∈ out, ∀ e ∈ contents (entryAt heap) size, str x ≤ entryKey str batches e

/-- Writing the line of the entry popped keeps what is written sorted, and below
what is to come. -/
theorem DrainInv.write {heap heap' : List HeapEntry} {size : ℕ} {out : List P} {e : HeapEntry}
    {line : P} (h : DrainInv str batches heap (size + 1) out)
    (hcontents : e ::ₘ contents (entryAt heap') size = contents (entryAt heap) (size + 1))
    (hmin : ∀ e' ∈ contents (entryAt heap) (size + 1),
      entryKey str batches e ≤ entryKey str batches e')
    (hline : e.line batches = some line) :
    ((out ++ [line]).Pairwise fun a b => str a ≤ str b) ∧
      ∀ x ∈ out ++ [line], ∀ e' ∈ contents (entryAt heap) (size + 1),
        str x ≤ entryKey str batches e' := by
  have hkey : entryKey str batches e = str line := by simp [entryKey, hline]
  have he : e ∈ contents (entryAt heap) (size + 1) := hcontents ▸ Multiset.mem_cons_self _ _
  constructor
  · refine List.pairwise_append.mpr ⟨h.sorted, List.pairwise_singleton _ _, ?_⟩
    intro x hx y hy
    rw [List.mem_singleton.mp hy, ← hkey]
    exact h.below x hx e he
  · intro x hx e' he'
    rcases List.mem_append.mp hx with hx | hx
    · exact h.below x hx e' he'
    · rw [List.mem_singleton.mp hx, ← hkey]
      exact hmin e' he'

/-- A turn that enters the next line of the batch keeps the invariant. -/
theorem DrainInv.push {heap heap₁ heap₂ : List HeapEntry} {size : ℕ} {out : List P}
    {e : HeapEntry} {vec : LineVec P} {line : P}
    (hsorted : ∀ vec ∈ batches, vec.items.Pairwise fun a b => str a ≤ str b)
    (h : DrainInv str batches heap (size + 1) out)
    (hcontents : e ::ₘ contents (entryAt heap₁) size = contents (entryAt heap) (size + 1))
    (hmin : ∀ e' ∈ contents (entryAt heap) (size + 1),
      entryKey str batches e ≤ entryKey str batches e')
    (hvec : batches[e.batch]? = some vec) (hitem : vec.items[e.idx]? = some line)
    (hline : e.line batches = some line) (hnext : e.next.InRange batches)
    (hwf : HeapWf str batches heap₂ (size + 1))
    (hcontents₂ : contents (entryAt heap₂) (size + 1)
      = e.next ::ₘ contents (entryAt heap₁) size) :
    DrainInv str batches heap₂ (size + 1) (out ++ [line]) := by
  obtain ⟨hsorted', hbelow⟩ := h.write hcontents hmin hline
  have he : e ∈ contents (entryAt heap) (size + 1) := hcontents ▸ Multiset.mem_cons_self _ _
  have hconserved := h.conserved
  rw [← hcontents, remaining_cons, HeapEntry.rest_eq hvec hitem] at hconserved
  refine ⟨hwf, ?_, hsorted', ?_⟩
  · rw [hcontents₂, remaining_cons, ← hconserved]
    simp only [← Multiset.coe_add, ← Multiset.cons_coe, ← Multiset.singleton_add]
    ac_rfl
  · intro x hx e' he'
    rw [hcontents₂, Multiset.mem_cons] at he'
    rcases he' with rfl | he'
    · exact (hbelow x hx e he).trans (entryKey_le_next hsorted (h.wf.in_range e he) hnext)
    · exact hbelow x hx e' (hcontents ▸ Multiset.mem_cons_of_mem he')

/-- A turn that writes the last line of a batch keeps the invariant. -/
theorem DrainInv.last {heap heap₁ : List HeapEntry} {size : ℕ} {out : List P} {e : HeapEntry}
    {vec : LineVec P} {line : P} (h : DrainInv str batches heap (size + 1) out)
    (hcontents : e ::ₘ contents (entryAt heap₁) size = contents (entryAt heap) (size + 1))
    (hmin : ∀ e' ∈ contents (entryAt heap) (size + 1),
      entryKey str batches e ≤ entryKey str batches e')
    (hvec : batches[e.batch]? = some vec) (hitem : vec.items[e.idx]? = some line)
    (hline : e.line batches = some line) (hlast : ¬ e.idx + 1 < vec.items.length)
    (hwf : HeapWf str batches heap₁ size) : DrainInv str batches heap₁ size (out ++ [line]) := by
  obtain ⟨hsorted', hbelow⟩ := h.write hcontents hmin hline
  have hconserved := h.conserved
  rw [← hcontents, remaining_cons, HeapEntry.rest_eq hvec hitem,
    HeapEntry.rest_next_eq_nil hvec hlast] at hconserved
  refine ⟨hwf, ?_, hsorted', ?_⟩
  · rw [← hconserved, ← Multiset.coe_add, add_assoc]
  · intro x hx e' he'
    exact hbelow x hx e' (hcontents ▸ Multiset.mem_cons_of_mem he')

/-- **The second loop ends within as many turns as there are lines left**, and has
then written all lines in order. -/
theorem mergeDrain_spec (hsorted : ∀ vec ∈ batches, vec.items.Pairwise fun a b => str a ≤ str b)
    (fuel : ℕ) : ∀ (heap : List HeapEntry) (size : ℕ) (out : List P),
    DrainInv str batches heap size out →
    (remaining batches (contents (entryAt heap) size)).card < fuel →
    ∃ out', mergeDrain str batches fuel heap size out = some out' ∧
      (out'.Pairwise fun a b => str a ≤ str b) ∧ (out' : Multiset P) = allLines batches := by
  induction fuel with
  | zero => exact fun _ _ _ _ hfuel => absurd hfuel (Nat.not_lt_zero _)
  | succ fuel ih =>
    intro heap size out h hfuel
    cases size with
    | zero =>
      -- Nothing is left in the heap, and so nothing is left to write.
      refine ⟨out, by simp [mergeDrain, heapPop], h.sorted, ?_⟩
      simpa [contents] using h.conserved
    | succ size =>
      obtain ⟨e, heap₁, hpop, hlen₁, hwf₁, hcontents, hmin⟩ := heapPop_spec h.wf
      have hin : e.InRange batches :=
        h.wf.in_range e (hcontents ▸ Multiset.mem_cons_self _ _)
      obtain ⟨vec, line, hvec, hitem, hline⟩ := hin.exists_vec
      -- the line written is one fewer to write
      rw [← hcontents, remaining_cons, HeapEntry.rest_eq hvec hitem, Multiset.card_add] at hfuel
      simp only [Multiset.coe_card, List.length_cons] at hfuel
      simp only [mergeDrain, hpop, hline, hvec, Option.bind_eq_bind, Option.bind_some]
      -- the batch of the line has another, or is used up
      by_cases hnext : e.idx + 1 < vec.items.length
      · have hnextin := (HeapEntry.next_inRange hvec).mpr hnext
        have hroom : size < heap₁.length := by
          have hle := h.wf.size_le
          omega
        obtain ⟨heap₂, hpush, -, hwf₂, hcontents₂⟩ := heapPush_spec hwf₁ hroom hnextin
        have hinv := h.push hsorted hcontents hmin hvec hitem hline hnextin hwf₂ hcontents₂
        rw [if_pos hnext]
        show ∃ out', ((heapPush str batches heap₁ size e.next).bind fun pushed =>
          mergeDrain str batches fuel pushed.1 pushed.2 (out ++ [line])) = some out' ∧ _
        rw [hpush]
        apply ih heap₂ (size + 1) (out ++ [line]) hinv
        rw [hcontents₂, remaining_cons, Multiset.card_add, Multiset.coe_card]
        omega
      · have hinv := h.last hcontents hmin hvec hitem hline hnext hwf₁
        rw [if_neg hnext]
        apply ih heap₁ size (out ++ [line]) hinv
        omega

/-- **Sorted batches are merged into one sorted permutation of their lines**, when
the arrays have a place for each batch. -/
theorem merge_spec (hsorted : ∀ vec ∈ batches, vec.items.Pairwise fun a b => str a ≤ str b)
    (heap : List HeapEntry) (hroom : batches.length ≤ heap.length) :
    ∃ out, merge str batches heap = some out ∧
      (out.Pairwise fun a b => str a ≤ str b) ∧ (out : Multiset P) = allLines batches := by
  obtain ⟨heap₁, size, hpopulate, -, hwf, hrest⟩ := mergePopulate_spec str heap hroom
  have hinv : DrainInv str batches heap₁ size [] :=
    ⟨hwf, by simpa using hrest, List.Pairwise.nil, by simp⟩
  simp only [merge, hpopulate, Option.bind_eq_bind, Option.bind_some]
  apply mergeDrain_spec hsorted _ heap₁ size [] hinv
  rw [hrest, card_allLines]
  exact Nat.lt_succ_self _

end Loops

end Tsag
