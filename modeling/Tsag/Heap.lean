import Tsag.LineVec
import Tsag.Lib.MinHeap

/-!
# The merge heap

The merge thread keeps one entry for each batch that has lines left in a binary
heap, ordered by the lines the entries stand for.  Every access to the heap's
array and to the batches is checked here, so that a result shows that none was
out of bounds.

## Main definitions

* `HeapEntry` — a batch and a place in it; `HeapEntry.line` — the line there.
* `heapLess`, `heapHeapifyUp`, `heapHeapifyDown`, `heapPush`, `heapPop`.
* `entryAt`, `entryKey` — the array and the comparison as the heap library has them.
* `HeapLessOrder` — the heap order in the words of the code.

## Main results

* `heapHeapifyUp_eq`, `heapHeapifyDown_eq` — the recursions stay in bounds and are
  those of the library.
* `heapPush_spec`, `heapPop_spec` — the heap order and the entries after a push and a pop.
* `heapHeapifyUp_append`, `heapHeapifyDown_append` — what follows the heap is left alone.
* `heapPush_heapPop_minHeap` — both operations, on any heap in any array.
-/

namespace Tsag

open MinHeap

variable {P : Type}

/-- `HeapEntry`. -/
structure HeapEntry where
  batch : ℕ
  idx : ℕ
  deriving DecidableEq, Repr

/-- `batches[e->batch]->items[e->idx]`. -/
def HeapEntry.line (batches : List (LineVec P)) (e : HeapEntry) : Option P := do
  let vec ← batches[e.batch]?
  vec.items[e.idx]?

section Code

variable (str : P → CStr) (batches : List (LineVec P))

/-- `heap_less`. -/
def heapLess (a b : HeapEntry) : Option Bool := do
  let x ← a.line batches
  let y ← b.line batches
  return strcmp (str x) (str y) = .lt

/-- `heap_heapify_up`. -/
def heapHeapifyUp (heap : List HeapEntry) (idx : ℕ) : Option (List HeapEntry) :=
  if idx = 0 then some heap
  else do
    let p := (idx - 1) / 2
    let child ← heap[idx]?
    let parent ← heap[p]?
    if ← heapLess str batches child parent then
      heapHeapifyUp ((heap.set p child).set idx parent) p
    else
      return heap
termination_by idx

/-- One of the two lines `if (c < *size && heap_less(..)) smallest = c;`. -/
def heapSmaller (heap : List HeapEntry) (size c smallest : ℕ) : Option ℕ :=
  if c < size then do
    let child ← heap[c]?
    let least ← heap[smallest]?
    return if ← heapLess str batches child least then c else smallest
  else some smallest

variable {str batches} in
theorem heapSmaller_eq_some {heap : List HeapEntry} {size c smallest m : ℕ}
    (h : heapSmaller str batches heap size c smallest = some m) :
    m = smallest ∨ m = c ∧ c < size := by
  unfold heapSmaller at h
  split at h
  · next hc =>
    simp only [Option.bind_eq_bind, Option.bind_eq_some_iff] at h
    obtain ⟨child, -, least, -, less, -, hm⟩ := h
    obtain rfl := Option.some.inj hm
    split
    · exact Or.inr ⟨rfl, hc⟩
    · exact Or.inl rfl
  · exact Or.inl (Option.some.inj h).symm

/-- `heap_heapify_down`. -/
def heapHeapifyDown (heap : List HeapEntry) (idx size : ℕ) : Option (List HeapEntry) :=
  match _hl : heapSmaller str batches heap size (idx * 2 + 1) idx with
  | none => none
  | some left =>
    match _hr : heapSmaller str batches heap size (idx * 2 + 2) left with
    | none => none
    | some smallest =>
      if smallest ≠ idx then do
        let child ← heap[smallest]?
        let parent ← heap[idx]?
        heapHeapifyDown ((heap.set smallest parent).set idx child) smallest size
      else some heap
termination_by size - idx
decreasing_by
  rcases heapSmaller_eq_some _hr with he | ⟨he, hlt⟩
  · rcases heapSmaller_eq_some _hl with he' | ⟨he', hlt⟩
    · omega
    · omega
  · omega

variable {str batches} in
/-- `heap_heapify_down` without the proofs its recursion is justified by. -/
theorem heapHeapifyDown_eq_bind (heap : List HeapEntry) (idx size : ℕ) :
    heapHeapifyDown str batches heap idx size
      = (heapSmaller str batches heap size (idx * 2 + 1) idx).bind fun left =>
        (heapSmaller str batches heap size (idx * 2 + 2) left).bind fun smallest =>
          if smallest ≠ idx then do
            let child ← heap[smallest]?
            let parent ← heap[idx]?
            heapHeapifyDown str batches ((heap.set smallest parent).set idx child) smallest size
          else some heap := by
  rw [heapHeapifyDown]
  split
  · next hl => rw [hl, Option.bind_none]
  · next left hl =>
    rw [hl, Option.bind_some]
    split
    · next hr => rw [hr, Option.bind_none]
    · next smallest hr => rw [hr, Option.bind_some]

/-- `heap_push`: the array and the size it leaves. -/
def heapPush (heap : List HeapEntry) (size : ℕ) (entry : HeapEntry) :
    Option (List HeapEntry × ℕ) :=
  if size < heap.length then do
    let heap' ← heapHeapifyUp str batches (heap.set size entry) size
    return (heap', size + 1)
  else none

/-- `heap_pop`: when it returns true, the entry it gives and the array and the size
it leaves. -/
def heapPop (heap : List HeapEntry) (size : ℕ) :
    Option (Option (HeapEntry × List HeapEntry × ℕ)) :=
  if size = 0 then some none
  else do
    let out ← heap[0]?
    let last ← heap[size - 1]?
    let heap' ← heapHeapifyDown str batches (heap.set 0 last) 0 (size - 1)
    return some (out, heap', size - 1)

end Code

/-! ### The heap as the library has it -/

/-- The array as a function on positions. -/
def entryAt (heap : List HeapEntry) (i : ℕ) : HeapEntry := heap.getD i ⟨0, 0⟩

/-- An entry of a line that is there. -/
def HeapEntry.InRange (batches : List (LineVec P)) (e : HeapEntry) : Prop :=
  (e.line batches).isSome

/-- The string entries are compared by. -/
def entryKey (str : P → CStr) (batches : List (LineVec P)) (e : HeapEntry) : CStr :=
  (e.line batches).elim ⟨[], List.not_mem_nil⟩ str

theorem getElem?_eq_entryAt {heap : List HeapEntry} {i : ℕ} (hi : i < heap.length) :
    heap[i]? = some (entryAt heap i) := by
  simp [entryAt, hi]

theorem entryAt_set {heap : List HeapEntry} {i : ℕ} (hi : i < heap.length) (e : HeapEntry) :
    entryAt (heap.set i e) = Function.update (entryAt heap) i e := by
  funext j
  by_cases hj : j = i
  · subst hj
    simp [entryAt, hi]
  · rw [Function.update_of_ne hj]
    simp [entryAt, List.getD_eq_getElem?_getD, List.getElem?_set_ne (Ne.symm hj)]

theorem entryAt_exchange {heap : List HeapEntry} {i j : ℕ} (hi : i < heap.length)
    (hj : j < heap.length) :
    entryAt ((heap.set i (entryAt heap j)).set j (entryAt heap i))
      = exchange (entryAt heap) i j := by
  rw [entryAt_set (by simpa using hj), entryAt_set hi]
  funext k
  by_cases hkj : k = j
  · subst hkj
    rw [Function.update_self, exchange_right]
  · rw [Function.update_of_ne hkj]
    by_cases hki : k = i
    · subst hki
      rw [Function.update_self, exchange_left]
    · rw [Function.update_of_ne hki, exchange_of_ne _ hki hkj]

/-- The entries in the heap, as they lie in the array. -/
theorem contents_eq_take {heap : List HeapEntry} {size : ℕ} (hsize : size ≤ heap.length) :
    contents (entryAt heap) size = (heap.take size : List HeapEntry) := by
  have htake : heap.take size = (List.range size).map (entryAt heap) := by
    apply List.ext_getElem
    · simp [hsize]
    · intro i hi _
      have hlt : i < heap.length := by
        rw [List.length_take] at hi
        omega
      simp [entryAt, hlt]
  rw [htake, contents, Multiset.range, Multiset.map_coe]

section Refinement

variable {str : P → CStr} {batches : List (LineVec P)}

variable (str) in
theorem heapLess_eq {a b : HeapEntry} (ha : a.InRange batches) (hb : b.InRange batches) :
    heapLess str batches a b
      = some (decide (entryKey str batches a < entryKey str batches b)) := by
  obtain ⟨x, hx⟩ := Option.isSome_iff_exists.mp ha
  obtain ⟨y, hy⟩ := Option.isSome_iff_exists.mp hb
  simp [heapLess, entryKey, hx, hy, strcmp_eq_lt_iff]

theorem inRange_exchange {f : ℕ → HeapEntry} {n i j : ℕ} (hi : i < n) (hj : j < n)
    (h : ∀ k < n, (f k).InRange batches) : ∀ k < n, (exchange f i j k).InRange batches := by
  intro k hk
  by_cases hki : k = i
  · subst hki
    rw [exchange_left]
    exact h j hj
  · by_cases hkj : k = j
    · subst hkj
      rw [exchange_right]
      exact h i hi
    · rw [exchange_of_ne f hki hkj]
      exact h k hk

/-- Entries in range stay so when one in range takes a place. -/
theorem inRange_update {f : ℕ → HeapEntry} {n i : ℕ} {e : HeapEntry} (he : e.InRange batches)
    (h : ∀ k < n, k ≠ i → (f k).InRange batches) :
    ∀ k < n, (Function.update f i e k).InRange batches := by
  refine (Function.forall_update_iff f fun k e => k < n → e.InRange batches).mpr ⟨?_, ?_⟩
  · intro _
    exact he
  · intro k hne hk
    exact h k hk hne

variable (str) in
/-- `heap_heapify_up` stays below `idx` and is the library's `siftUp`. -/
theorem heapHeapifyUp_eq {heap : List HeapEntry} {idx : ℕ} (hidx : idx < heap.length)
    (hin : ∀ i < idx + 1, (entryAt heap i).InRange batches) :
    ∃ heap', heapHeapifyUp str batches heap idx = some heap' ∧ heap'.length = heap.length ∧
      entryAt heap' = siftUp (entryKey str batches) (entryAt heap) idx := by
  induction idx using Nat.strong_induction_on generalizing heap with
  | _ idx ih =>
    rw [heapHeapifyUp, siftUp]
    by_cases h0 : idx = 0
    · rw [if_pos h0, if_pos h0]
      exact ⟨heap, rfl, rfl, rfl⟩
    · rw [if_neg h0, if_neg h0]
      have hp : (idx - 1) / 2 < idx := by omega
      have hplen := hp.trans hidx
      have hless := heapLess_eq str (hin idx (Nat.lt_succ_self idx))
        (hin _ (Nat.lt_succ_of_lt hp))
      simp only [getElem?_eq_entryAt hidx, getElem?_eq_entryAt hplen, Option.bind_eq_bind,
        Option.bind_some, hless]
      -- the entry and its parent change places, if they are not in order
      by_cases hlt : entryKey str batches (entryAt heap idx)
          < entryKey str batches (entryAt heap ((idx - 1) / 2))
      · simp only [hlt, decide_true, if_true]
        have hswap := entryAt_exchange hplen hidx
        generalize hset : (heap.set ((idx - 1) / 2) (entryAt heap idx)).set idx
          (entryAt heap ((idx - 1) / 2)) = heap₁ at hswap ⊢
        have hlen₁ : heap₁.length = heap.length := by simp [← hset]
        have hin₁ : ∀ i < (idx - 1) / 2 + 1, (entryAt heap₁ i).InRange batches := by
          rw [hswap]
          intro i hi
          exact inRange_exchange (Nat.lt_succ_of_lt hp) (Nat.lt_succ_self idx) hin i (by omega)
        obtain ⟨heap', hup, hlen, hview⟩ := ih _ hp (hlen₁.symm ▸ hplen) hin₁
        exact ⟨heap', hup, hlen.trans hlen₁, by rw [hview, hswap]⟩
      · simp only [hlt, decide_false, if_false]
        exact ⟨heap, rfl, rfl, rfl⟩

variable (str) in
/-- A comparison of `heap_heapify_down` stays inside the heap. -/
theorem heapSmaller_eq {heap : List HeapEntry} {size c m : ℕ} (hsize : size ≤ heap.length)
    (hin : ∀ i < size, (entryAt heap i).InRange batches) (hm : m ≤ c) :
    heapSmaller str batches heap size c m
      = some (smaller (entryKey str batches) (entryAt heap) size c m) := by
  unfold heapSmaller smaller
  by_cases hc : c < size
  · have hmsize := lt_of_le_of_lt hm hc
    have hless := heapLess_eq str (hin c hc) (hin m hmsize)
    simp only [getElem?_eq_entryAt (hc.trans_le hsize), getElem?_eq_entryAt (hmsize.trans_le hsize),
      Option.bind_eq_bind, Option.bind_some, hless, hc, true_and]
    simp
  · simp [hc]

variable (str) in
/-- `heap_heapify_down` stays inside the heap and is the library's `siftDown`. -/
theorem heapHeapifyDown_eq {heap : List HeapEntry} (idx : ℕ) {size : ℕ}
    (hsize : size ≤ heap.length) (hin : ∀ i < size, (entryAt heap i).InRange batches) :
    ∃ heap', heapHeapifyDown str batches heap idx size = some heap' ∧
      heap'.length = heap.length ∧
      entryAt heap' = siftDown (entryKey str batches) (entryAt heap) size idx := by
  induction hd : size - idx using Nat.strong_induction_on generalizing heap idx with
  | _ d ih =>
    have hleft := heapSmaller_eq str (c := idx * 2 + 1) (m := idx) hsize hin (by omega)
    have hle : smaller (entryKey str batches) (entryAt heap) size (idx * 2 + 1) idx
        ≤ idx * 2 + 2 := by
      rcases smaller_cases (entryKey str batches) (entryAt heap) size (idx * 2 + 1) idx
        with he | ⟨he, -, -⟩ <;> omega
    -- the two comparisons find the least of the entry and its children
    have hright := heapSmaller_eq str hsize hin hle
    have hfold : smaller (entryKey str batches) (entryAt heap) size (idx * 2 + 2)
        (smaller (entryKey str batches) (entryAt heap) size (idx * 2 + 1) idx)
      = smallest (entryKey str batches) (entryAt heap) size idx := rfl
    rw [heapHeapifyDown_eq_bind, siftDown, hleft, Option.bind_some, hright, Option.bind_some, hfold]
    rcases smallest_cases (entryKey str batches) (entryAt heap) size idx with
      hself | ⟨hm, -, hgt, -⟩
    · rw [if_neg (not_not.mpr hself), dif_pos hself]
      exact ⟨heap, rfl, rfl, rfl⟩
    · -- A child is less: the entry goes down, to a place with fewer places below it.
      rw [if_pos hgt.ne', dif_neg hgt.ne']
      generalize smallest (entryKey str batches) (entryAt heap) size idx = m at hm hgt ⊢
      have hmlen := hm.trans_le hsize
      have hidxlen := hgt.trans hmlen
      have hswap := entryAt_exchange hmlen hidxlen
      simp only [getElem?_eq_entryAt hmlen, getElem?_eq_entryAt hidxlen, Option.bind_eq_bind,
        Option.bind_some]
      generalize hset : (heap.set m (entryAt heap idx)).set idx (entryAt heap m) = heap₁
        at hswap ⊢
      have hlen₁ : heap₁.length = heap.length := by simp [← hset]
      have hin₁ : ∀ i < size, (entryAt heap₁ i).InRange batches := by
        rw [hswap]
        exact inRange_exchange hm (hgt.trans hm) hin
      obtain ⟨heap', hdown, hlen, hview⟩ :=
        ih _ (by omega) m (hlen₁.symm ▸ hsize) hin₁ rfl
      exact ⟨heap', hdown, hlen.trans hlen₁, by rw [hview, hswap]⟩

/-! ### Pushes and pops -/

/-- The heap in the first `size` places of the array: its entries stand for lines
that are there, and are in heap order. -/
structure HeapWf (str : P → CStr) (batches : List (LineVec P)) (heap : List HeapEntry)
    (size : ℕ) : Prop where
  size_le : size ≤ heap.length
  in_range : ∀ e ∈ contents (entryAt heap) size, e.InRange batches
  order : HeapOrder (entryKey str batches) (entryAt heap) size

theorem HeapWf.entryAt_inRange {heap : List HeapEntry} {size : ℕ}
    (h : HeapWf str batches heap size) : ∀ i < size, (entryAt heap i).InRange batches :=
  fun i hi => h.in_range _ (mem_contents.mpr ⟨i, hi, rfl⟩)

/-- **A push with room stays in bounds, keeps the heap and adds its entry.** -/
theorem heapPush_spec {heap : List HeapEntry} {size : ℕ} {entry : HeapEntry}
    (h : HeapWf str batches heap size) (hroom : size < heap.length)
    (hentry : entry.InRange batches) :
    ∃ heap', heapPush str batches heap size entry = some (heap', size + 1) ∧
      heap'.length = heap.length ∧ HeapWf str batches heap' (size + 1) ∧
      contents (entryAt heap') (size + 1) = entry ::ₘ contents (entryAt heap) size := by
  have hview := entryAt_set hroom entry
  have hin : ∀ i < size + 1, (entryAt (heap.set size entry) i).InRange batches := by
    rw [hview]
    exact inRange_update hentry fun i hi hne => h.entryAt_inRange i (by omega)
  obtain ⟨heap', hup, hlen, hview'⟩ :=
    heapHeapifyUp_eq str (by simpa using hroom) hin
  have hlen' : heap'.length = heap.length := by simpa using hlen
  have hpush : entryAt heap' = push (entryKey str batches) (entryAt heap) size entry := by
    rw [hview', hview, push]
  have hcontents := push_contents (entryKey str batches) (entryAt heap) size entry
  rw [← hpush] at hcontents
  refine ⟨heap', by simp [heapPush, hroom, hup], hlen', ⟨?_, ?_, ?_⟩, hcontents⟩
  · exact hlen'.symm ▸ hroom
  · intro e he
    rw [hcontents, Multiset.mem_cons] at he
    rcases he with rfl | he
    · exact hentry
    · exact h.in_range e he
  · rw [hpush]
    exact push_order h.order entry

/-- **A pop of a non-empty heap stays in bounds, keeps the heap and takes out an
entry with nothing below it.** -/
theorem heapPop_spec {heap : List HeapEntry} {size : ℕ}
    (h : HeapWf str batches heap (size + 1)) :
    ∃ out heap', heapPop str batches heap (size + 1) = some (some (out, heap', size)) ∧
      heap'.length = heap.length ∧ HeapWf str batches heap' size ∧
      out ::ₘ contents (entryAt heap') size = contents (entryAt heap) (size + 1) ∧
      ∀ e ∈ contents (entryAt heap) (size + 1),
        entryKey str batches out ≤ entryKey str batches e := by
  have hfirst : 0 < heap.length := Nat.zero_lt_of_lt h.size_le
  have hlast : size < heap.length := h.size_le
  have hview := entryAt_set hfirst (entryAt heap size)
  -- the last entry is moved to the root
  have hin : ∀ i < size, (entryAt (heap.set 0 (entryAt heap size)) i).InRange batches := by
    rw [hview]
    exact inRange_update (h.entryAt_inRange size (Nat.lt_succ_self size))
      fun i hi _ => h.entryAt_inRange i (Nat.lt_succ_of_lt hi)
  obtain ⟨heap', hdown, hlen, hview'⟩ := heapHeapifyDown_eq str 0
    (by simpa using hlast.le) hin
  have hlen' : heap'.length = heap.length := by simpa using hlen
  have hpop : entryAt heap' = pop (entryKey str batches) (entryAt heap) size := by
    rw [hview', hview, pop]
  have hcontents := pop_contents (entryKey str batches) (entryAt heap) size
  rw [← hpop] at hcontents
  refine ⟨entryAt heap 0, heap', ?_, hlen', ⟨?_, ?_, ?_⟩, hcontents, ?_⟩
  · simp [heapPop, getElem?_eq_entryAt hfirst, getElem?_eq_entryAt hlast, hdown]
  · exact hlen'.symm ▸ hlast.le
  · intro e he
    exact h.in_range e (hcontents ▸ Multiset.mem_cons_of_mem he)
  · rw [hpop]
    exact pop_order h.order
  · intro e he
    exact h.order.root_le_contents he

/-! ### The array beyond the heap -/

theorem getElem?_append_of_eq_some {heap : List HeapEntry} {i : ℕ} {e : HeapEntry}
    (h : heap[i]? = some e) (rest : List HeapEntry) :
    i < heap.length ∧ (heap ++ rest)[i]? = some e := by
  have hi := (List.getElem?_eq_some_iff.mp h).1
  exact ⟨hi, (List.getElem?_append_left hi).trans h⟩

/-- A run of `heap_heapify_up` that stays inside an array leaves what follows it alone. -/
theorem heapHeapifyUp_append {heap heap' : List HeapEntry} {idx : ℕ}
    (h : heapHeapifyUp str batches heap idx = some heap') (rest : List HeapEntry) :
    heapHeapifyUp str batches (heap ++ rest) idx = some (heap' ++ rest) := by
  induction idx using Nat.strong_induction_on generalizing heap with
  | _ idx ih =>
    rw [heapHeapifyUp] at h ⊢
    by_cases h0 : idx = 0
    · rw [if_pos h0, Option.some.injEq] at h
      rw [if_pos h0, h]
    · rw [if_neg h0] at h ⊢
      simp only [Option.bind_eq_bind, Option.bind_eq_some_iff] at h
      obtain ⟨child, hchild, parent, hparent, less, hless, h⟩ := h
      obtain ⟨hidx, hchild'⟩ := getElem?_append_of_eq_some hchild rest
      obtain ⟨hp, hparent'⟩ := getElem?_append_of_eq_some hparent rest
      simp only [hchild', hparent', hless, Option.bind_eq_bind, Option.bind_some]
      cases less with
      | false =>
        obtain rfl := Option.some.inj h
        rfl
      | true =>
        rw [if_pos rfl] at h ⊢
        rw [List.set_append_left _ _ hp, List.set_append_left _ _ (by simpa using hidx)]
        exact ih _ (by omega) h

theorem heapSmaller_append {heap : List HeapEntry} {size c m r : ℕ}
    (h : heapSmaller str batches heap size c m = some r) (rest : List HeapEntry) :
    heapSmaller str batches (heap ++ rest) size c m = some r := by
  unfold heapSmaller at h ⊢
  split
  · next hc =>
    rw [if_pos hc] at h
    simp only [Option.bind_eq_bind, Option.bind_eq_some_iff] at h
    obtain ⟨child, hchild, least, hleast, less, hless, h⟩ := h
    simp only [(getElem?_append_of_eq_some hchild rest).2,
      (getElem?_append_of_eq_some hleast rest).2, hless, Option.bind_eq_bind, Option.bind_some]
    exact h
  · next hc =>
    rwa [if_neg hc] at h

/-- A run of `heap_heapify_down` that stays inside an array leaves what follows it alone. -/
theorem heapHeapifyDown_append {heap heap' : List HeapEntry} {idx size : ℕ}
    (h : heapHeapifyDown str batches heap idx size = some heap') (rest : List HeapEntry) :
    heapHeapifyDown str batches (heap ++ rest) idx size = some (heap' ++ rest) := by
  induction hd : size - idx using Nat.strong_induction_on generalizing heap idx with
  | _ d ih =>
    rw [heapHeapifyDown_eq_bind] at h ⊢
    simp only [Option.bind_eq_some_iff] at h
    obtain ⟨left, hleft, m, hm, h⟩ := h
    simp only [heapSmaller_append hleft rest, heapSmaller_append hm rest, Option.bind_some]
    by_cases hself : m = idx
    · rw [if_neg (not_not.mpr hself)] at h ⊢
      obtain rfl := Option.some.inj h
      rfl
    · rw [if_pos hself] at h ⊢
      simp only [Option.bind_eq_bind, Option.bind_eq_some_iff] at h
      obtain ⟨child, hchild, parent, hparent, h⟩ := h
      obtain ⟨hmlen, hchild'⟩ := getElem?_append_of_eq_some hchild rest
      obtain ⟨hidx, hparent'⟩ := getElem?_append_of_eq_some hparent rest
      simp only [hchild', hparent', Option.bind_eq_bind, Option.bind_some]
      rw [List.set_append_left _ _ hmlen, List.set_append_left _ _ (by simpa using hidx)]
      have hlt : size - m < size - idx := by
        rcases heapSmaller_eq_some hm with he | ⟨he, hc⟩
        · rcases heapSmaller_eq_some hleft with he' | ⟨he', hc⟩ <;> omega
        · omega
      exact ih _ (by omega) h rfl

/-! ### Any heap in any array -/

/-- No entry is below its parent under `heap_less`. -/
def HeapLessOrder (str : P → CStr) (batches : List (LineVec P)) (live : List HeapEntry) : Prop :=
  ∀ i child parent, 0 < i → live[i]? = some child → live[(i - 1) / 2]? = some parent →
    heapLess str batches child parent = some false

theorem heapLess_eq_false_iff {a b : HeapEntry} (ha : a.InRange batches)
    (hb : b.InRange batches) : heapLess str batches a b = some false ↔
      entryKey str batches b ≤ entryKey str batches a := by
  rw [heapLess_eq str ha hb, Option.some.injEq, decide_eq_false_iff_not, not_lt]

/-- A heap at the start of an array, in the words of the code. -/
theorem heapWf_append_iff {live rest : List HeapEntry} :
    HeapWf str batches (live ++ rest) live.length ↔
      (∀ e ∈ live, e.InRange batches) ∧ HeapLessOrder str batches live := by
  have hcontents : contents (entryAt (live ++ rest)) live.length = (live : Multiset HeapEntry) := by
    rw [contents_eq_take (by simp), List.take_left]
  have hentry : ∀ i < live.length, live[i]? = some (entryAt (live ++ rest) i) := by
    intro i hi
    have happend : (live ++ rest)[i]? = live[i]? := List.getElem?_append_left hi
    rw [← happend]
    exact getElem?_eq_entryAt (by rw [List.length_append]; omega)
  constructor
  · intro h
    have hin : ∀ e ∈ live, e.InRange batches := fun e he => h.in_range e (by rwa [hcontents])
    refine ⟨hin, ?_⟩
    intro i child parent h0 hchild hparent
    have hi := (List.getElem?_eq_some_iff.mp hchild).1
    rw [heapLess_eq_false_iff (hin _ (List.mem_of_getElem? hchild))
      (hin _ (List.mem_of_getElem? hparent))]
    rw [hentry i hi, Option.some.injEq] at hchild
    rw [hentry _ (by omega), Option.some.injEq] at hparent
    rw [← hchild, ← hparent]
    exact h.order i h0 hi
  · rintro ⟨hin, horder⟩
    refine ⟨by simp, fun e he => hin e (by rwa [hcontents] at he), ?_⟩
    intro i h0 hi
    have hchild := hentry i hi
    have hparent := hentry ((i - 1) / 2) (by omega)
    exact (heapLess_eq_false_iff (hin _ (List.mem_of_getElem? hchild))
      (hin _ (List.mem_of_getElem? hparent))).mp (horder i _ _ h0 hchild hparent)

/-- The order of a heap that fills its array. -/
theorem heapWf_iff {live : List HeapEntry} {size : ℕ} (hsize : live.length = size) :
    HeapWf str batches live size ↔
      (∀ e ∈ live, e.InRange batches) ∧ HeapLessOrder str batches live := by
  have hiff : HeapWf str batches (live ++ []) live.length ↔ _ := heapWf_append_iff
  rwa [List.append_nil, hsize] at hiff

/-- A push overwrites the place behind the heap before it reads it. -/
theorem heapPush_append (live : List HeapEntry) (slot entry : HeapEntry)
    (rest : List HeapEntry) : heapPush str batches (live ++ slot :: rest) live.length entry
      = (heapHeapifyUp str batches (live ++ entry :: rest) live.length).map
        fun heap => (heap, live.length + 1) := by
  have hroom : live.length < (live ++ slot :: rest).length := by simp
  rw [heapPush, if_pos hroom, List.set_append_right _ _ le_rfl, Nat.sub_self, List.set_cons_zero]
  cases heapHeapifyUp str batches (live ++ entry :: rest) live.length <;> rfl

/-- A pop that stays inside an array leaves what follows it alone. -/
theorem heapPop_append {heap heap' : List HeapEntry} {size size' : ℕ} {out : HeapEntry}
    (h : heapPop str batches heap size = some (some (out, heap', size')))
    (rest : List HeapEntry) :
    heapPop str batches (heap ++ rest) size = some (some (out, heap' ++ rest, size')) := by
  unfold heapPop at h ⊢
  split at h
  · cases h
  · next h0 =>
    rw [if_neg h0]
    simp only [Option.bind_eq_bind, Option.bind_eq_some_iff] at h
    obtain ⟨first, hfirst, last, hlast, heap₁, hdown, h⟩ := h
    obtain ⟨hlen, hfirst'⟩ := getElem?_append_of_eq_some hfirst rest
    simp only [Option.pure_def, Option.some.injEq, Prod.mk.injEq] at h
    obtain ⟨rfl, rfl, rfl⟩ := h
    simp only [hfirst', (getElem?_append_of_eq_some hlast rest).2, Option.bind_eq_bind,
      Option.bind_some, List.set_append_left _ _ hlen, heapHeapifyDown_append hdown rest]
    rfl

/-- **The heap operations keep a min-heap and lose nothing**, in every array that starts
with a heap of lines that are there.  A push changes the heap and the place behind it,
a pop the heap; what follows is neither read nor changed, and need not be there. -/
theorem heapPush_heapPop_minHeap {live : List HeapEntry} (hin : ∀ e ∈ live, e.InRange batches)
    (horder : HeapLessOrder str batches live) :
    (∀ entry, entry.InRange batches → ∃ live',
      (∀ slot rest, heapPush str batches (live ++ slot :: rest) live.length entry
        = some (live' ++ rest, live.length + 1)) ∧
      live'.length = live.length + 1 ∧ HeapLessOrder str batches live' ∧
      live'.Perm (entry :: live)) ∧
    (0 < live.length → ∃ out live' last,
      (∀ rest, heapPop str batches (live ++ rest) live.length
        = some (some (out, live' ++ last :: rest, live.length - 1))) ∧
      live'.length = live.length - 1 ∧ HeapLessOrder str batches live' ∧
      (out :: live').Perm live ∧ ∀ e ∈ live, heapLess str batches e out = some false) := by
  constructor
  · intro entry hentry
    -- it is enough to have one place behind the heap; what follows is not looked at
    have hwf : HeapWf str batches (live ++ [entry]) live.length :=
      heapWf_append_iff.mpr ⟨hin, horder⟩
    obtain ⟨live', hpush, hlen, hwf', hcontents⟩ := heapPush_spec hwf (by simp) hentry
    rw [List.length_append, List.length_singleton] at hlen
    rw [heapPush_append, Option.map_eq_some_iff] at hpush
    obtain ⟨heap, hup, heq⟩ := hpush
    obtain ⟨rfl, -⟩ := Prod.ext_iff.mp heq
    rw [contents_eq_take hlen.ge, List.take_of_length_le hlen.le, contents_eq_take (by simp),
      List.take_left, Multiset.cons_coe, Multiset.coe_eq_coe] at hcontents
    refine ⟨heap, ?_, hlen, ((heapWf_iff hlen).mp hwf').2, hcontents⟩
    intro slot rest
    have hrest := heapHeapifyUp_append hup rest
    rw [List.append_assoc, List.singleton_append] at hrest
    rw [heapPush_append, hrest]
    rfl
  · intro hpos
    obtain ⟨size, hsize⟩ : ∃ size, live.length = size + 1 :=
      Nat.exists_eq_succ_of_ne_zero hpos.ne'
    have hwf : HeapWf str batches live (size + 1) := (heapWf_iff hsize).mpr ⟨hin, horder⟩
    obtain ⟨out, heap, hpop, hlen, hwf', hcontents, hmin⟩ := heapPop_spec hwf
    rw [hsize] at hlen ⊢
    -- the place that is free is the last one
    obtain ⟨live', last, rfl⟩ : ∃ live' last, heap = live' ++ [last] :=
      (List.eq_nil_or_concat' heap).resolve_left fun hnil => by rw [hnil] at hlen; cases hlen
    have hlen' : live'.length = size := by simpa using hlen
    have hlive : contents (entryAt live) (size + 1) = (live : Multiset HeapEntry) := by
      rw [contents_eq_take hsize.ge, List.take_of_length_le hsize.le]
    have hperm : (out :: live').Perm live := by
      rwa [hlive, ← hlen', contents_eq_take (by simp), List.take_left, Multiset.cons_coe,
        Multiset.coe_eq_coe] at hcontents
    rw [← hlen', heapWf_append_iff] at hwf'
    refine ⟨out, live', last, ?_, hlen', hwf'.2, hperm, ?_⟩
    · intro rest
      have hrest := heapPop_append hpop rest
      rw [List.append_assoc, List.singleton_append] at hrest
      exact hrest
    · intro e he
      have hout : out ∈ live := hperm.subset (List.mem_cons_self ..)
      rw [heapLess_eq_false_iff (hin e he) (hin out hout)]
      exact hmin e (by rwa [hlive])

/-- A push to and a pop of a heap of two lines, the lesser at the root. -/
theorem heapPush_heapPop_minHeap_two :
    let batches := [⟨[CStr.lit "b"], 1⟩, ⟨[CStr.lit "a", CStr.lit "c"], 2⟩]
    (∃ live', (∀ slot rest, heapPush id batches (⟨1, 0⟩ :: ⟨0, 0⟩ :: slot :: rest) 2 ⟨1, 1⟩
        = some (live' ++ rest, 3)) ∧ live'.Perm [⟨1, 1⟩, ⟨1, 0⟩, ⟨0, 0⟩]) ∧
      ∃ out live' last, (∀ rest, heapPop id batches (⟨1, 0⟩ :: ⟨0, 0⟩ :: rest) 2
        = some (some (out, live' ++ last :: rest, 1))) ∧
        heapLess id batches ⟨0, 0⟩ out = some false := by
  intro batches
  have hin : ∀ e ∈ [⟨1, 0⟩, ⟨0, 0⟩], HeapEntry.InRange batches e := by
    intro e he
    rcases List.mem_pair.mp he with rfl | rfl <;> rfl
  have horder : HeapLessOrder id batches [⟨1, 0⟩, ⟨0, 0⟩] := by
    intro i child parent h0 hchild hparent
    have hi : i < 2 := (List.getElem?_eq_some_iff.mp hchild).1
    obtain rfl : i = 1 := by omega
    obtain rfl := Option.some.inj hchild
    obtain rfl := Option.some.inj hparent
    decide
  obtain ⟨hpush, hpop⟩ := heapPush_heapPop_minHeap hin horder
  constructor
  · obtain ⟨live', hpush, -, -, hperm⟩ := hpush ⟨1, 1⟩ rfl
    exact ⟨live', hpush, hperm⟩
  · obtain ⟨out, live', last, hpop, -, -, -, hmin⟩ := hpop (by decide)
    exact ⟨out, live', last, hpop, hmin ⟨0, 0⟩ (by simp)⟩

end Refinement

end Tsag
