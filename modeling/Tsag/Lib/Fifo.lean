import Tsag.Lib.Transition

/-!
# Bounded first-in first-out queues that can be closed

The abstract component: a list of at most `cap` items, put at the end and got at
the front, and a flag that is raised once.  Getting from a queue that is closed
and drained finds nothing.

## Main definitions

* `Fifo α cap` — a queue's items and flag, the bound carried as a field.
* `FifoOp` — what can be observed of a queue; `fifoLts` — the queue's runs.
* `putItems tr`, `gotItems tr` — the items put and got along a trace.

## Main results

* `putItems_eq` — the items put are the items got followed by the items held.
-/

/-- A queue of at most `cap` items. -/
structure Fifo (α : Type*) (cap : ℕ) where
  /-- The items put and not yet got, oldest first. -/
  items : List α
  /-- No more items are to be expected. -/
  closed : Bool
  le_cap : items.length ≤ cap

/-- What can be observed of a queue. -/
inductive FifoOp (α : Type*)
  /-- An item is put. -/
  | put (x : α)
  /-- An item is got. -/
  | got (x : α)
  /-- A getter is told that there is nothing more. -/
  | drained
  /-- The queue is closed. -/
  | close

variable {α : Type*} {cap : ℕ}

/-- The steps of a queue. -/
inductive FifoStep : Fifo α cap → FifoOp α → Fifo α cap → Prop
  | put {a : Fifo α cap} {x : α} (h : (a.items ++ [x]).length ≤ cap) :
      FifoStep a (.put x) ⟨a.items ++ [x], a.closed, h⟩
  | got {a : Fifo α cap} {x : α} {rest : List α} (hitems : a.items = x :: rest)
      (h : rest.length ≤ cap) : FifoStep a (.got x) ⟨rest, a.closed, h⟩
  | drained {a : Fifo α cap} (hclosed : a.closed = true) (hitems : a.items = []) :
      FifoStep a .drained a
  | close {a : Fifo α cap} : FifoStep a .close ⟨a.items, true, a.le_cap⟩

/-- The system of a bounded queue, empty and open at first. -/
def fifoLts (α : Type*) (cap : ℕ) : Lts (Fifo α cap) (FifoOp α) where
  Init a := a.items = [] ∧ a.closed = false
  Step := FifoStep

/-- The item an operation puts, if any. -/
def FifoOp.putItem : FifoOp α → Option α
  | .put x => some x
  | _ => none

/-- The item an operation gets, if any. -/
def FifoOp.gotItem : FifoOp α → Option α
  | .got x => some x
  | _ => none

/-- The items put along a trace, in order. -/
def putItems (tr : List (FifoOp α)) : List α := tr.filterMap FifoOp.putItem

/-- The items got along a trace, in order. -/
def gotItems (tr : List (FifoOp α)) : List α := tr.filterMap FifoOp.gotItem

/-- **First in, first out.**  What has been put is what has been got, followed
by what the queue holds: nothing is lost, doubled or reordered. -/
theorem putItems_eq {tr : List (FifoOp α)} {a : Fifo α cap} (h : (fifoLts α cap).Exec tr a) :
    putItems tr = gotItems tr ++ a.items := by
  refine h.induction (P := fun tr a => putItems tr = gotItems tr ++ a.items) ?_ ?_
  · rintro a ⟨hitems, -⟩
    simp [putItems, gotItems, hitems]
  · intro tr a op a' _ ih hs
    unfold putItems gotItems at ih ⊢
    rw [List.filterMap_append, List.filterMap_append, ih, List.append_assoc, List.append_assoc]
    congr 1
    cases hs with
    | put _ => rfl
    | got hitems _ => exact (List.append_nil _).trans hitems
    | drained _ _ => exact List.append_nil _
    | close => exact List.append_nil _
