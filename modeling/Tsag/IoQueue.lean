import Tsag.Lib.Fifo
import Tsag.Lib.Ring

/-!
# The blocking queue's critical sections

`ioqueue.c` keeps its items in a ring and guards every access with one mutex, so
an operation is a critical section between taking the lock and giving it up.  A
section that finds its wait condition true sleeps instead; here it returns
`none` and leaves the queue as it was.

## Main definitions

* `IoQueue α` — the struct, the synchronisation objects aside.
* `ioQueueNew`, `ioQueuePut`, `ioQueueGet`, `ioQueueClose` — its functions.
* `IoQueue.Wf` — the ring's invariant; `IoQueue.items` — what the ring holds.

## Main results

* `IoQueue.Wf.put`, `IoQueue.Wf.get_some`, `IoQueue.Wf.get_null`, `IoQueue.Wf.close` —
  what one section does to the items held.
* `ioQueuePut_eq_none_iff`, `ioQueueGet_eq_none_iff` — when a section sleeps.
-/

namespace Tsag

/-- `QUEUE_CAPACITY`, the capacity of the work queue. -/
def queueCapacity : ℕ := 512

/-- `IoQueue`.  The slots of `buf` are pointers, `none` the null pointer. -/
structure IoQueue (α : Type*) where
  /-- `void** buf`, of `cap` slots. -/
  buf : List (Option α)
  /-- The slot the next get reads. -/
  head : ℕ
  /-- The slot the next put writes. -/
  tail : ℕ
  cap : ℕ
  count : ℕ
  closed : Bool
  deriving DecidableEq, Repr

variable {α : Type*}

/-- `io_queue_new`, its allocations successful: `calloc` leaves every slot null. -/
def ioQueueNew (α : Type*) (cap : ℕ) : IoQueue α where
  buf := List.replicate cap none
  head := 0
  tail := 0
  cap := cap
  count := 0
  closed := false

/-- `io_queue_put`; `none` when it has to wait on `not_full`. -/
def ioQueuePut (q : IoQueue α) (item : α) : Option (IoQueue α) :=
  if q.count = q.cap then none
  else some { q with
    buf := q.buf.set q.tail (some item)
    tail := (q.tail + 1) % q.cap
    count := q.count + 1 }

/-- `io_queue_get`; `none` when it has to wait on `not_empty`, otherwise what it
returns, `none` being `NULL`, and the queue it leaves. -/
def ioQueueGet (q : IoQueue α) : Option (Option α × IoQueue α) :=
  if q.count = 0 ∧ q.closed = false then none
  else if q.count = 0 then some (none, q) -- closed + drained
  else some (q.buf.getD q.head none, { q with
    head := (q.head + 1) % q.cap
    count := q.count - 1 })

/-- `io_queue_close`. -/
def ioQueueClose (q : IoQueue α) : IoQueue α := { q with closed := true }

/-! ### The ring -/

namespace IoQueue

/-- The slots between `head` and `tail`, in the order they are to be got. -/
def slots (q : IoQueue α) : List (Option α) := ringRead none q.buf q.cap q.head q.count

/-- The items put and not yet got, oldest first. -/
def items (q : IoQueue α) : List α := q.slots.filterMap id

/-- The invariant of the ring: its positions are inside it and `tail` is `count`
slots after `head`, and no slot between them is null. -/
structure Wf (q : IoQueue α) : Prop where
  length_buf : q.buf.length = q.cap
  head_lt : q.head < q.cap
  count_le : q.count ≤ q.cap
  tail_eq : q.tail = (q.head + q.count) % q.cap
  filled : ∀ o ∈ q.slots, o.isSome

theorem map_some_items_of_filled {l : List (Option α)} (h : ∀ o ∈ l, o.isSome) :
    (l.filterMap id).map some = l := by
  induction l with
  | nil => rfl
  | cons o l ih =>
    obtain ⟨x, rfl⟩ := Option.isSome_iff_exists.mp (h o (List.mem_cons_self ..))
    have hl := ih fun o' ho' => h o' (List.mem_cons_of_mem _ ho')
    simpa [List.filterMap] using hl

/-- In a well-formed queue the slots read are exactly the items held. -/
theorem Wf.slots_eq {q : IoQueue α} (h : q.Wf) : q.slots = q.items.map some :=
  (map_some_items_of_filled h.filled).symm

theorem Wf.length_items {q : IoQueue α} (h : q.Wf) : q.items.length = q.count := by
  have hlen := congrArg List.length h.slots_eq
  rw [List.length_map, slots, length_ringRead] at hlen
  exact hlen.symm

theorem Wf.tail_lt {q : IoQueue α} (h : q.Wf) : q.tail < q.cap := by
  rw [h.tail_eq]
  exact Nat.mod_lt _ (Nat.zero_lt_of_lt h.head_lt)

theorem Wf.length_items_le {q : IoQueue α} (h : q.Wf) : q.items.length ≤ q.cap :=
  h.length_items.symm ▸ h.count_le

theorem Wf.items_eq_nil_iff {q : IoQueue α} (h : q.Wf) : q.items = [] ↔ q.count = 0 := by
  rw [← List.length_eq_zero_iff, h.length_items]

end IoQueue

open IoQueue

/-! ### What the sections do -/

@[simp] theorem ioQueueNew_cap (cap : ℕ) : (ioQueueNew α cap).cap = cap := rfl

@[simp] theorem ioQueueNew_closed (cap : ℕ) : (ioQueueNew α cap).closed = false := rfl

@[simp] theorem ioQueueNew_items (cap : ℕ) : (ioQueueNew α cap).items = [] := rfl

theorem ioQueueNew_wf {cap : ℕ} (hcap : 1 ≤ cap) : (ioQueueNew α cap).Wf where
  length_buf := List.length_replicate
  head_lt := hcap
  count_le := Nat.zero_le _
  tail_eq := rfl
  filled := fun o ho => by cases ho

@[simp] theorem ioQueueClose_cap (q : IoQueue α) : (ioQueueClose q).cap = q.cap := rfl

@[simp] theorem ioQueueClose_closed (q : IoQueue α) : (ioQueueClose q).closed = true := rfl

@[simp] theorem ioQueueClose_count (q : IoQueue α) : (ioQueueClose q).count = q.count := rfl

@[simp] theorem ioQueueClose_items (q : IoQueue α) : (ioQueueClose q).items = q.items := rfl

theorem IoQueue.Wf.close {q : IoQueue α} (h : q.Wf) : (ioQueueClose q).Wf where
  length_buf := h.length_buf
  head_lt := h.head_lt
  count_le := h.count_le
  tail_eq := h.tail_eq
  filled := h.filled

/-- Everything a put that does not sleep does. -/
theorem ioQueuePut_eq_some {q q' : IoQueue α} {x : α} (h : ioQueuePut q x = some q') :
    q.count ≠ q.cap ∧ q' = { q with
      buf := q.buf.set q.tail (some x)
      tail := (q.tail + 1) % q.cap
      count := q.count + 1 } := by
  unfold ioQueuePut at h
  split at h
  · cases h
  · next hne => exact ⟨hne, by simpa using h.symm⟩

/-- Everything a get that does not sleep does. -/
theorem ioQueueGet_eq_some {q q' : IoQueue α} {r : Option α} (h : ioQueueGet q = some (r, q')) :
    (q.count = 0 ∧ q.closed = true ∧ r = none ∧ q' = q) ∨
    (q.count ≠ 0 ∧ r = q.buf.getD q.head none ∧ q' = { q with
      head := (q.head + 1) % q.cap
      count := q.count - 1 }) := by
  unfold ioQueueGet at h
  split at h
  · cases h
  · next hwait =>
    split at h
    · next hcount =>
      obtain ⟨rfl, rfl⟩ : none = r ∧ q = q' := by simpa using h
      exact Or.inl ⟨hcount, by simpa [hcount] using hwait, rfl, rfl⟩
    · next hcount =>
      obtain ⟨rfl, rfl⟩ : _ = r ∧ _ = q' := by simpa using h
      exact Or.inr ⟨hcount, rfl, rfl⟩

theorem ioQueuePut_count {q q' : IoQueue α} {x : α} (h : ioQueuePut q x = some q') :
    q'.count = q.count + 1 := by
  rw [(ioQueuePut_eq_some h).2]

theorem ioQueueGet_some_count {q q' : IoQueue α} {x : α} (h : ioQueueGet q = some (some x, q')) :
    q'.count + 1 = q.count := by
  obtain ⟨-, -, hr, -⟩ | ⟨hcount, -, rfl⟩ := ioQueueGet_eq_some h
  · cases hr
  · exact Nat.succ_pred hcount

theorem ioQueueGet_count_le {q q' : IoQueue α} {r : Option α} (h : ioQueueGet q = some (r, q')) :
    q'.count ≤ q.count := by
  obtain ⟨-, -, -, rfl⟩ | ⟨-, -, rfl⟩ := ioQueueGet_eq_some h
  · exact le_rfl
  · exact Nat.pred_le _

theorem ioQueuePut_cap {q q' : IoQueue α} {x : α} (h : ioQueuePut q x = some q') :
    q'.cap = q.cap := by
  rw [(ioQueuePut_eq_some h).2]

theorem ioQueuePut_closed {q q' : IoQueue α} {x : α} (h : ioQueuePut q x = some q') :
    q'.closed = q.closed := by
  rw [(ioQueuePut_eq_some h).2]

theorem ioQueueGet_cap {q q' : IoQueue α} {r : Option α} (h : ioQueueGet q = some (r, q')) :
    q'.cap = q.cap := by
  obtain ⟨-, -, -, rfl⟩ | ⟨-, -, rfl⟩ := ioQueueGet_eq_some h <;> rfl

theorem ioQueueGet_closed {q q' : IoQueue α} {r : Option α} (h : ioQueueGet q = some (r, q')) :
    q'.closed = q.closed := by
  obtain ⟨-, -, -, rfl⟩ | ⟨-, -, rfl⟩ := ioQueueGet_eq_some h <;> rfl

/-- A put sleeps exactly on a full queue. -/
theorem ioQueuePut_eq_none_iff {q : IoQueue α} (h : q.Wf) (x : α) :
    ioQueuePut q x = none ↔ q.items.length = q.cap := by
  rw [h.length_items]
  unfold ioQueuePut
  split <;> simp_all

/-- A get sleeps exactly on a queue that is empty and open. -/
theorem ioQueueGet_eq_none_iff {q : IoQueue α} (h : q.Wf) :
    ioQueueGet q = none ↔ q.items = [] ∧ q.closed = false := by
  rw [h.items_eq_nil_iff]
  unfold ioQueueGet
  split
  · simp_all
  · split <;> simp_all

theorem IoQueue.Wf.exists_put {q : IoQueue α} (h : q.Wf) (hroom : q.items.length < q.cap) (x : α) :
    ∃ q', ioQueuePut q x = some q' := by
  rw [← Option.ne_none_iff_exists', Ne, ioQueuePut_eq_none_iff h]
  omega

theorem IoQueue.Wf.exists_get {q : IoQueue α} (h : q.Wf)
    (hready : q.closed = true ∨ q.items ≠ []) : ∃ r q', ioQueueGet q = some (r, q') := by
  have hsome : ioQueueGet q ≠ none := by
    rw [Ne, ioQueueGet_eq_none_iff h]
    rcases hready with hclosed | hitems
    · simp [hclosed]
    · simp [hitems]
  obtain ⟨⟨r, q'⟩, hget⟩ := Option.ne_none_iff_exists'.mp hsome
  exact ⟨r, q', hget⟩

/-- A put writes none of the slots yet to be got. -/
theorem IoQueue.Wf.put_fresh {q q' : IoQueue α} {x : α} (h : q.Wf)
    (hput : ioQueuePut q x = some q') : ∀ i < q.count, (q.head + i) % q.cap ≠ q.tail := by
  intro i hi
  have hcount : q.count < q.cap := lt_of_le_of_ne h.count_le (ioQueuePut_eq_some hput).1
  rw [h.tail_eq]
  exact ring_index_ne hi hcount

/-- A put appends its item to the slots to be got. -/
theorem IoQueue.Wf.put_slots {q q' : IoQueue α} {x : α} (h : q.Wf)
    (hput : ioQueuePut q x = some q') : q'.slots = q.slots ++ [some x] := by
  obtain ⟨hne, rfl⟩ := ioQueuePut_eq_some hput
  have hcount : q.count < q.cap := lt_of_le_of_ne h.count_le hne
  unfold slots
  simp only [h.tail_eq]
  exact ringRead_set none q.buf h.length_buf hcount (some x)

/-- **A put keeps the invariant and appends its item.** -/
theorem IoQueue.Wf.put {q q' : IoQueue α} {x : α} (h : q.Wf) (hput : ioQueuePut q x = some q') :
    q'.Wf ∧ q'.items = q.items ++ [x] := by
  have hslots := h.put_slots hput
  refine ⟨?_, by simp [items, hslots]⟩
  obtain ⟨hne, rfl⟩ := ioQueuePut_eq_some hput
  have hcount : q.count < q.cap := lt_of_le_of_ne h.count_le hne
  constructor
  · simpa using h.length_buf
  · exact h.head_lt
  · exact hcount
  · show (q.tail + 1) % q.cap = (q.head + (q.count + 1)) % q.cap
    rw [h.tail_eq, Nat.mod_add_mod, Nat.add_assoc]
  · intro o ho
    rw [hslots, List.mem_append, List.mem_singleton] at ho
    rcases ho with ho | rfl
    · exact h.filled o ho
    · rfl

/-- A get that finds an item reads the oldest slot and steps past it. -/
theorem IoQueue.Wf.get_slots {q q' : IoQueue α} {r : Option α} (h : q.Wf)
    (hget : ioQueueGet q = some (r, q')) (hcount : q.count ≠ 0) : q.slots = r :: q'.slots := by
  obtain ⟨h0, -, -, -⟩ | ⟨-, rfl, rfl⟩ := ioQueueGet_eq_some hget
  · exact absurd h0 hcount
  · unfold slots
    obtain ⟨n, hn⟩ := Nat.exists_eq_succ_of_ne_zero hcount
    simp only [hn]
    exact ringRead_succ none q.buf h.head_lt n

/-- A get keeps the invariant, whatever it finds. -/
theorem IoQueue.Wf.get {q q' : IoQueue α} {r : Option α} (h : q.Wf)
    (hget : ioQueueGet q = some (r, q')) : q'.Wf := by
  have hslots := h.get_slots hget
  obtain ⟨-, -, -, rfl⟩ | ⟨hcount, -, rfl⟩ := ioQueueGet_eq_some hget
  · exact h
  · have hcap : 0 < q.cap := Nat.zero_lt_of_lt h.head_lt
    constructor
    · exact h.length_buf
    · exact Nat.mod_lt _ hcap
    · exact (Nat.sub_le _ _).trans h.count_le
    · show q.tail = ((q.head + 1) % q.cap + (q.count - 1)) % q.cap
      rw [h.tail_eq, Nat.mod_add_mod]
      congr 1
      omega
    · intro o ho
      exact h.filled o (hslots hcount ▸ List.mem_cons_of_mem _ ho)

/-- **A get that returns an item returns the oldest.** -/
theorem IoQueue.Wf.get_some {q q' : IoQueue α} {x : α} (h : q.Wf)
    (hget : ioQueueGet q = some (some x, q')) : q'.Wf ∧ q.items = x :: q'.items := by
  refine ⟨h.get hget, ?_⟩
  have hcount : q.count ≠ 0 := by
    obtain ⟨-, -, hr, -⟩ | ⟨hcount, -, -⟩ := ioQueueGet_eq_some hget
    · cases hr
    · exact hcount
  simp [items, h.get_slots hget hcount]

/-- **A get returns `NULL` only from a queue that is closed and empty.** -/
theorem IoQueue.Wf.get_null {q q' : IoQueue α} (h : q.Wf)
    (hget : ioQueueGet q = some (none, q')) : q.closed = true ∧ q.count = 0 ∧ q' = q := by
  obtain ⟨hcount, hclosed, -, rfl⟩ | ⟨hcount, hr, -⟩ := ioQueueGet_eq_some hget
  · exact ⟨hclosed, hcount, rfl⟩
  · -- a slot between `head` and `tail` is never null
    have hmem : (none : Option α) ∈ q.slots := by
      rw [h.get_slots hget hcount]
      exact List.mem_cons_self ..
    simpa using h.filled none hmem

/-- A queue that holds an item gives its oldest. -/
theorem IoQueue.Wf.exists_get_some {q : IoQueue α} {x : α} {l : List α} (h : q.Wf)
    (hitems : q.items = x :: l) : ∃ q', ioQueueGet q = some (some x, q') ∧ q'.items = l := by
  obtain ⟨r, q', hget⟩ := h.exists_get (Or.inr (by simp [hitems]))
  cases r with
  | none =>
    have hcount := (h.get_null hget).2.1
    rw [h.items_eq_nil_iff.mpr hcount] at hitems
    cases hitems
  | some y =>
    have hold := (h.get_some hget).2
    rw [hitems, List.cons.injEq] at hold
    exact ⟨q', by rw [hold.1, hget], hold.2.symm⟩

/-- A queue that is closed and empty gives `NULL`. -/
theorem IoQueue.Wf.get_of_drained {q : IoQueue α} (h : q.Wf) (hclosed : q.closed = true)
    (hitems : q.items = []) : ioQueueGet q = some (none, q) := by
  have hcount := h.items_eq_nil_iff.mp hitems
  simp [ioQueueGet, hcount, hclosed]

end Tsag
