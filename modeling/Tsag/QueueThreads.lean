import Tsag.IoQueue
import Tsag.Lib.Condvar

/-!
# Threads at a blocking queue

Any number of threads put, get and close.  A critical section whose wait
condition holds puts its thread to sleep on a condition variable; a thread woken
there takes the lock again, after whoever got it first, and re-runs its check.
Wake-ups may also be spurious.

## Main definitions

* `QueuePc` — where a thread is; `notFull`, `notEmpty` — the condition variables.
* `QueueStep`, `queueLts` — the critical sections of all threads, in any order.
* `QueueEvent.visible` — the queue operation a step completes, if any.
* `NoLostWakeup` — the counting invariant of sleepers and woken threads.

## Main results

* `queueSimulation` — the queue refines a bounded first-in first-out queue.
* `ioQueue_refines_fifo` — what that says of the ring, its slots and its results.
* `ioQueue_no_lost_wakeup` — nobody sleeps on a condition that holds for good.
-/

namespace Tsag

open IoQueue

variable {T α : Type*}

/-- Where a thread is in the queue's functions. -/
inductive QueuePc (α : Type*)
  /-- Not inside any of them. -/
  | outside
  /-- In `pthread_cond_wait(&q->not_full, ..)`, with `x` to put. -/
  | asleepFull (x : α)
  /-- Woken there, yet to take the lock again. -/
  | wokenFull (x : α)
  /-- In `pthread_cond_wait(&q->not_empty, ..)`. -/
  | asleepEmpty
  /-- Woken there, yet to take the lock again. -/
  | wokenEmpty
  deriving DecidableEq, Repr

/-- The condition variable putters sleep on. -/
def notFull : Condvar (QueuePc α)
  | .asleepFull x => some (.wokenFull x)
  | _ => none

/-- The condition variable getters sleep on. -/
def notEmpty : Condvar (QueuePc α)
  | .asleepEmpty => some .wokenEmpty
  | _ => none

/-- A thread here runs the wait loop of `io_queue_put(q, x)` when it has the lock:
it calls the function now, or it was woken inside it. -/
def QueuePc.MayPut (x : α) (pc : QueuePc α) : Prop := pc = .outside ∨ pc = .wokenFull x

/-- A thread here runs the wait loop of `io_queue_get(q)` when it has the lock. -/
def QueuePc.MayGet (pc : QueuePc α) : Prop := pc = .outside ∨ pc = .wokenEmpty

/-- A woken putter. -/
def QueuePc.WokenFull (pc : QueuePc α) : Prop := ∃ x, pc = .wokenFull x

/-- A woken getter. -/
def QueuePc.WokenEmpty (pc : QueuePc α) : Prop := pc = .wokenEmpty

instance : DecidablePred (QueuePc.WokenFull (α := α)) := fun pc =>
  match pc with
  | .wokenFull x => isTrue ⟨x, rfl⟩
  | .outside | .asleepFull _ | .asleepEmpty | .wokenEmpty => isFalse (by rintro ⟨x, hx⟩; cases hx)

instance : DecidablePred (QueuePc.WokenEmpty (α := α)) := fun pc =>
  match pc with
  | .wokenEmpty => isTrue rfl
  | .outside | .asleepFull _ | .wokenFull _ | .asleepEmpty => isFalse (by rintro ⟨⟩)

/-- A queue and where every thread is. -/
structure QueueState (T α : Type*) where
  q : IoQueue α
  pc : T → QueuePc α

/-- What one step does, and which thread does it. -/
inductive QueueEvent (T α : Type*)
  /-- `io_queue_put` goes to sleep. -/
  | putSleep (t : T) (x : α)
  /-- `io_queue_put` returns. -/
  | put (t : T) (x : α)
  /-- `io_queue_get` goes to sleep. -/
  | getSleep (t : T)
  /-- `io_queue_get` returns `r`. -/
  | get (t : T) (r : Option α)
  /-- `io_queue_close` returns. -/
  | close (t : T)
  /-- A sleeper wakes up unasked. -/
  | spurious (t : T)

/-- One critical section of one thread, or a spurious wake-up. -/
inductive QueueStep [DecidableEq T] :
    QueueState T α → QueueEvent T α → QueueState T α → Prop
  | putSleep {s : QueueState T α} {t : T} {x : α} (hpc : (s.pc t).MayPut x)
      (hq : ioQueuePut s.q x = none) :
      QueueStep s (.putSleep t x) { s with pc := Function.update s.pc t (.asleepFull x) }
  | put {s : QueueState T α} {t : T} {x : α} {q' : IoQueue α} {pc' : T → QueuePc α}
      (hpc : (s.pc t).MayPut x) (hq : ioQueuePut s.q x = some q')
      (hsig : Signal notEmpty s.pc pc') :
      QueueStep s (.put t x) ⟨q', Function.update pc' t .outside⟩
  | getSleep {s : QueueState T α} {t : T} (hpc : (s.pc t).MayGet)
      (hq : ioQueueGet s.q = none) :
      QueueStep s (.getSleep t) { s with pc := Function.update s.pc t .asleepEmpty }
  | get {s : QueueState T α} {t : T} {x : α} {q' : IoQueue α} {pc' : T → QueuePc α}
      (hpc : (s.pc t).MayGet) (hq : ioQueueGet s.q = some (some x, q'))
      (hsig : Signal notFull s.pc pc') :
      QueueStep s (.get t (some x)) ⟨q', Function.update pc' t .outside⟩
  -- the branch that returns `NULL` signals nobody
  | getNull {s : QueueState T α} {t : T} {q' : IoQueue α}
      (hpc : (s.pc t).MayGet) (hq : ioQueueGet s.q = some (none, q')) :
      QueueStep s (.get t none) ⟨q', Function.update s.pc t .outside⟩
  | close {s : QueueState T α} {t : T} (hpc : s.pc t = .outside) :
      QueueStep s (.close t) ⟨ioQueueClose s.q, broadcast notEmpty s.pc⟩
  | spuriousFull {s : QueueState T α} {t : T} {x : QueuePc α} (h : notFull (s.pc t) = some x) :
      QueueStep s (.spurious t) { s with pc := Function.update s.pc t x }
  | spuriousEmpty {s : QueueState T α} {t : T} {x : QueuePc α}
      (h : notEmpty (s.pc t) = some x) :
      QueueStep s (.spurious t) { s with pc := Function.update s.pc t x }

/-- A fresh queue of the given capacity and the threads `T` around it. -/
def queueLts (T α : Type*) [DecidableEq T] (cap : ℕ) : Lts (QueueState T α) (QueueEvent T α) where
  Init s := s.q = ioQueueNew α cap ∧ ∀ t, s.pc t = .outside
  Step := QueueStep

/-- The queue operation a step completes. -/
def QueueEvent.visible : QueueEvent T α → Option (FifoOp α)
  | .put _ x => some (.put x)
  | .get _ (some x) => some (.got x)
  | .get _ none => some .drained
  | .close _ => some .close
  | .putSleep _ _ | .getSleep _ | .spurious _ => none

/-! ### Refinement of a bounded queue -/

variable [DecidableEq T] {cap : ℕ}

/-- The ring is well formed and holds what the abstract queue holds. -/
structure Refines (cap : ℕ) (s : QueueState T α) (a : Fifo α cap) : Prop where
  wf : s.q.Wf
  cap_eq : s.q.cap = cap
  items_eq : s.q.items = a.items
  closed_eq : s.q.closed = a.closed

theorem Refines.step_silent {s s' : QueueState T α} {e : QueueEvent T α} {a : Fifo α cap}
    (hs : QueueStep s e s') (hv : e.visible = none) (h : Refines cap s a) :
    Refines cap s' a := by
  cases hs with
  | putSleep _ _ => exact ⟨h.wf, h.cap_eq, h.items_eq, h.closed_eq⟩
  | getSleep _ _ => exact ⟨h.wf, h.cap_eq, h.items_eq, h.closed_eq⟩
  | spuriousFull _ => exact ⟨h.wf, h.cap_eq, h.items_eq, h.closed_eq⟩
  | spuriousEmpty _ => exact ⟨h.wf, h.cap_eq, h.items_eq, h.closed_eq⟩
  | put _ _ _ => cases hv
  | get _ _ _ => cases hv
  | getNull _ _ => cases hv
  | close _ => cases hv

theorem Refines.step_visible {s s' : QueueState T α} {e : QueueEvent T α} {a : Fifo α cap}
    {op : FifoOp α} (hs : QueueStep s e s') (hv : e.visible = some op) (h : Refines cap s a) :
    ∃ a', FifoStep a op a' ∧ Refines cap s' a' := by
  cases hs with
  | putSleep _ _ => cases hv
  | getSleep _ _ => cases hv
  | spuriousFull _ => cases hv
  | spuriousEmpty _ => cases hv
  | @put _ x q' _ _ hq _ =>
    obtain rfl : FifoOp.put x = op := by simpa [QueueEvent.visible] using hv
    obtain ⟨hwf, hitems⟩ := h.wf.put hq
    have hcap : q'.cap = cap := (ioQueuePut_cap hq).trans h.cap_eq
    have hle : (a.items ++ [x]).length ≤ cap := by
      rw [← h.items_eq, ← hitems, ← hcap]
      exact hwf.length_items_le
    refine ⟨⟨a.items ++ [x], a.closed, hle⟩, FifoStep.put hle, hwf, hcap, ?_, ?_⟩
    · rw [hitems, h.items_eq]
    · exact (ioQueuePut_closed hq).trans h.closed_eq
  | @get _ x q' _ _ hq _ =>
    obtain rfl : FifoOp.got x = op := by simpa [QueueEvent.visible] using hv
    obtain ⟨hwf, hitems⟩ := h.wf.get_some hq
    have hcap : q'.cap = cap := (ioQueueGet_cap hq).trans h.cap_eq
    have hle : q'.items.length ≤ cap := hcap ▸ hwf.length_items_le
    refine ⟨⟨q'.items, a.closed, hle⟩, FifoStep.got (h.items_eq ▸ hitems) hle, hwf, hcap, rfl, ?_⟩
    exact (ioQueueGet_closed hq).trans h.closed_eq
  | @getNull _ q' _ hq =>
    obtain rfl : FifoOp.drained = op := by simpa [QueueEvent.visible] using hv
    obtain ⟨hclosed, hcount, rfl⟩ := h.wf.get_null hq
    refine ⟨a, FifoStep.drained (h.closed_eq ▸ hclosed) ?_, h.wf, h.cap_eq, h.items_eq, h.closed_eq⟩
    rw [← h.items_eq]
    exact h.wf.items_eq_nil_iff.mpr hcount
  | close _ =>
    obtain rfl : FifoOp.close = op := by simpa [QueueEvent.visible] using hv
    exact ⟨_, FifoStep.close, h.wf.close, h.cap_eq, h.items_eq, rfl⟩

/-- **The queue refines a bounded first-in first-out queue**, whatever the
threads do and however they are scheduled. -/
def queueSimulation (hcap : 1 ≤ cap) : Lts.Simulation (queueLts T α cap) (fifoLts α cap) where
  Rel := Refines cap
  visible := QueueEvent.visible
  init := by
    rintro s ⟨hq, -⟩
    refine ⟨⟨[], false, Nat.zero_le _⟩, ⟨rfl, rfl⟩, ?_, ?_, ?_, ?_⟩ <;> rw [hq]
    · exact ioQueueNew_wf hcap
    · rfl
    · rfl
    · rfl
  silent := fun _ _ _ _ => Refines.step_silent
  step := fun _ _ _ _ _ => Refines.step_visible

theorem queue_wf (hcap : 1 ≤ cap) {s : QueueState T α}
    (h : (queueLts T α cap).Reachable s) : s.q.Wf ∧ s.q.cap = cap := by
  obtain ⟨tr, h⟩ := h
  obtain ⟨a, -, hrel⟩ := (queueSimulation hcap).exec h
  exact ⟨hrel.wf, hrel.cap_eq⟩

/-- The items put along a run, in the order of the critical sections. -/
def putsOf (tr : List (QueueEvent T α)) : List α := putItems (tr.filterMap QueueEvent.visible)

/-- The items got along a run, in the order of the critical sections. -/
def getsOf (tr : List (QueueEvent T α)) : List α := gotItems (tr.filterMap QueueEvent.visible)

/-- **The ring is a bounded first-in first-out queue.**  Along every run the ring
keeps its invariant, its slots hold exactly what has been put and not yet got, in
that order, no put writes a slot still to be got, and a get returns `NULL` only
from a closed and empty queue. -/
theorem ioQueue_refines_fifo (hcap : 1 ≤ cap) {tr : List (QueueEvent T α)}
    {s : QueueState T α} (h : (queueLts T α cap).Exec tr s) :
    (∃ a : Fifo α cap, (fifoLts α cap).Exec (tr.filterMap QueueEvent.visible) a ∧
      a.items = s.q.items ∧ a.closed = s.q.closed) ∧
    (s.q.cap = cap ∧ s.q.head < s.q.cap ∧ s.q.tail < s.q.cap ∧ s.q.count ≤ s.q.cap ∧
      s.q.tail = (s.q.head + s.q.count) % s.q.cap) ∧
    s.q.slots = ((putsOf tr).drop (getsOf tr).length).map some ∧
    getsOf tr <+: putsOf tr ∧
    (∀ t x s', QueueStep s (.put t x) s' →
      ∀ i < s.q.count, (s.q.head + i) % s.q.cap ≠ s.q.tail) ∧
    (∀ t s', QueueStep s (.get t none) s' → s.q.closed = true ∧ s.q.count = 0) := by
  obtain ⟨a, ha, hrel⟩ := (queueSimulation hcap).exec h
  have hputs : putsOf tr = getsOf tr ++ a.items := putItems_eq ha
  have hwf := hrel.wf
  refine ⟨⟨a, ha, hrel.items_eq.symm, hrel.closed_eq.symm⟩,
    ⟨hrel.cap_eq, hwf.head_lt, hwf.tail_lt, hwf.count_le, hwf.tail_eq⟩, ?_, ?_, ?_, ?_⟩
  · rw [hwf.slots_eq, hrel.items_eq, hputs, List.drop_left]
  · exact ⟨a.items, hputs.symm⟩
  · intro t x s' hs
    cases hs with
    | put _ hq _ => exact hwf.put_fresh hq
  · intro t s' hs
    cases hs with
    | getNull _ hq =>
      obtain ⟨hclosed, hcount, -⟩ := hwf.get_null hq
      exact ⟨hclosed, hcount⟩

theorem ioQueue_refines_fifo_one_slot : ∃ s : QueueState Bool ℕ,
    (queueLts Bool ℕ 1).Exec [.getSleep true, .put false 7] s ∧ s.q.slots = [some 7] := by
  let s₀ : QueueState Bool ℕ := ⟨ioQueueNew ℕ 1, fun _ => .outside⟩
  have h₀ : (queueLts Bool ℕ 1).Exec [] s₀ := Lts.Exec.init ⟨rfl, fun _ => rfl⟩
  have h₁ := h₀.snoc (QueueStep.getSleep (t := true) (Or.inl rfl) rfl)
  have h₂ := h₁.snoc (QueueStep.put (t := false) (x := 7) (Or.inl rfl) rfl
    (Signal.wake (t := true) rfl))
  exact ⟨_, h₂, (ioQueue_refines_fifo (Nat.le_refl 1) h₂).2.2.1⟩

/-! ### No lost wake-up -/

theorem QueuePc.MayPut.awake {x : α} {pc : QueuePc α} (h : pc.MayPut x) :
    notFull pc = none ∧ notEmpty pc = none := by
  rcases h with rfl | rfl <;> exact ⟨rfl, rfl⟩

theorem QueuePc.MayGet.awake {pc : QueuePc α} (h : pc.MayGet) :
    notFull pc = none ∧ notEmpty pc = none := by
  rcases h with rfl | rfl <;> exact ⟨rfl, rfl⟩

theorem notEmpty_eq_some {a b : QueuePc α} (h : notEmpty a = some b) :
    a = .asleepEmpty ∧ b = .wokenEmpty := by
  cases a <;> simp_all [notEmpty]

theorem notFull_eq_some {a b : QueuePc α} (h : notFull a = some b) :
    ∃ x, a = .asleepFull x ∧ b = .wokenFull x := by
  cases a <;> simp_all [notFull]

/-- Waking a getter counts it. -/
theorem notEmpty_wokenEmpty (a b : QueuePc α) (h : notEmpty a = some b) :
    ¬ a.WokenEmpty ∧ b.WokenEmpty := by
  obtain ⟨rfl, rfl⟩ := notEmpty_eq_some h
  exact ⟨fun hw => (by cases hw), rfl⟩

/-- Waking a putter counts it. -/
theorem notFull_wokenFull (a b : QueuePc α) (h : notFull a = some b) :
    ¬ a.WokenFull ∧ b.WokenFull := by
  obtain ⟨x, rfl, rfl⟩ := notFull_eq_some h
  exact ⟨fun ⟨y, hy⟩ => (by cases hy), x, rfl⟩

/-- Waking a putter counts no getter. -/
theorem notFull_wokenEmpty (a b : QueuePc α) (h : notFull a = some b) :
    a.WokenEmpty ↔ b.WokenEmpty := by
  obtain ⟨x, rfl, rfl⟩ := notFull_eq_some h
  constructor <;> intro hw <;> cases hw

/-- Waking a getter counts no putter. -/
theorem notEmpty_wokenFull (a b : QueuePc α) (h : notEmpty a = some b) :
    a.WokenFull ↔ b.WokenFull := by
  obtain ⟨rfl, rfl⟩ := notEmpty_eq_some h
  constructor <;> rintro ⟨x, hx⟩ <;> cases hx

/-- The counting invariant.  While a getter sleeps, the queue is open and every
item in it is spoken for by a woken getter that has yet to re-run its check;
while a putter sleeps, so is every free slot by a woken putter. -/
structure NoLostWakeup [Fintype T] (s : QueueState T α) : Prop where
  getters : ∀ t, s.pc t = .asleepEmpty →
    s.q.closed = false ∧ s.q.count ≤ census QueuePc.WokenEmpty s.pc
  putters : ∀ t x, s.pc t = .asleepFull x →
    s.q.cap - s.q.count ≤ census QueuePc.WokenFull s.pc

theorem QueuePc.MayPut.not_wokenEmpty {x : α} {pc : QueuePc α} (h : pc.MayPut x) :
    ¬ pc.WokenEmpty := by
  rcases h with rfl | rfl <;> intro hw <;> cases hw

theorem QueuePc.MayGet.not_wokenFull {pc : QueuePc α} (h : pc.MayGet) : ¬ pc.WokenFull := by
  rcases h with rfl | rfl <;> rintro ⟨x, hx⟩ <;> cases hx

/-- A thread found at a point that nobody was just moved to was there before. -/
theorem of_update_eq {f : T → QueuePc α} {t u : T} {pc y : QueuePc α}
    (h : Function.update f t pc u = y) (hne : pc ≠ y) : u ≠ t ∧ f u = y := by
  have hut : u ≠ t := by
    intro hut
    rw [hut, Function.update_self] at h
    exact hne h
  exact ⟨hut, by rwa [Function.update_of_ne hut] at h⟩

/-- A signal moves nobody to a sleeping point. -/
theorem asleep_of_signal {cv : Condvar (QueuePc α)} {f f' : T → QueuePc α} {t u : T}
    {pc y : QueuePc α} (hsig : Signal cv f f') (hpc : Function.update f' t pc u = y)
    (hne : pc ≠ y) (hwoken : ∀ a, cv a ≠ some y) : f u = y := by
  obtain ⟨-, hu⟩ := of_update_eq hpc hne
  rcases hsig.eq_or_woken u with heq | hw
  · rw [← heq, hu]
  · rw [hu] at hw
    exact absurd hw (hwoken _)

theorem notEmpty_ne_asleepEmpty (a : QueuePc α) : notEmpty a ≠ some .asleepEmpty := by
  cases a <;> simp [notEmpty]

theorem notEmpty_ne_asleepFull (x : α) (a : QueuePc α) : notEmpty a ≠ some (.asleepFull x) := by
  cases a <;> simp [notEmpty]

theorem notFull_ne_asleepEmpty (a : QueuePc α) : notFull a ≠ some .asleepEmpty := by
  cases a <;> simp [notFull]

theorem notFull_ne_asleepFull (x : α) (a : QueuePc α) : notFull a ≠ some (.asleepFull x) := by
  cases a <;> simp [notFull]

variable [Fintype T]

theorem NoLostWakeup.put {s : QueueState T α} {t : T} {x : α} {q' : IoQueue α}
    {pc' : T → QueuePc α} (h : NoLostWakeup s) (hpc : (s.pc t).MayPut x)
    (hq : ioQueuePut s.q x = some q') (hsig : Signal notEmpty s.pc pc') :
    NoLostWakeup ⟨q', Function.update pc' t .outside⟩ := by
  have ht : pc' t = s.pc t := hsig.eq_of_awake hpc.awake.2
  obtain ⟨-, rfl⟩ := ioQueuePut_eq_some hq
  constructor
  · -- the item put is spoken for by the getter the signal wakes
    intro u hu
    have hu := asleep_of_signal hsig hu (by simp) notEmpty_ne_asleepEmpty
    obtain ⟨hopen, hle⟩ := h.getters u hu
    have hwoken : census QueuePc.WokenEmpty pc' = census QueuePc.WokenEmpty s.pc + 1 :=
      hsig.census_woken _ notEmpty_wokenEmpty (t := u) (by rw [hu]; rfl)
    have hmove := census_update QueuePc.WokenEmpty pc' t .outside
    rw [ht, if_neg hpc.not_wokenEmpty] at hmove
    refine ⟨hopen, ?_⟩
    show s.q.count + 1 ≤ census QueuePc.WokenEmpty (Function.update pc' t .outside)
    omega
  · -- the putter may have been one of those woken, but then it takes a slot
    intro u y hu
    have hu := asleep_of_signal hsig hu (by simp) (notEmpty_ne_asleepFull y)
    have hle := h.putters u y hu
    have hsame : census QueuePc.WokenFull pc' = census QueuePc.WokenFull s.pc :=
      hsig.census_of_iff _ notEmpty_wokenFull
    have hmove := census_update QueuePc.WokenFull pc' t .outside
    show s.q.cap - (s.q.count + 1) ≤ census QueuePc.WokenFull (Function.update pc' t .outside)
    split at hmove <;> split at hmove <;> omega

theorem NoLostWakeup.get {s : QueueState T α} {t : T} {x : α} {q' : IoQueue α}
    {pc' : T → QueuePc α} (h : NoLostWakeup s) (hpc : (s.pc t).MayGet)
    (hq : ioQueueGet s.q = some (some x, q')) (hcount : s.q.count ≠ 0)
    (hsig : Signal notFull s.pc pc') :
    NoLostWakeup ⟨q', Function.update pc' t .outside⟩ := by
  have ht : pc' t = s.pc t := hsig.eq_of_awake hpc.awake.1
  obtain ⟨h0, -, -, -⟩ | ⟨-, -, rfl⟩ := ioQueueGet_eq_some hq
  · exact absurd h0 hcount
  constructor
  · -- the getter may have been one of those woken, but then it takes an item
    intro u hu
    have hu := asleep_of_signal hsig hu (by simp) notFull_ne_asleepEmpty
    obtain ⟨hopen, hle⟩ := h.getters u hu
    have hsame : census QueuePc.WokenEmpty pc' = census QueuePc.WokenEmpty s.pc :=
      hsig.census_of_iff _ notFull_wokenEmpty
    have hmove := census_update QueuePc.WokenEmpty pc' t .outside
    refine ⟨hopen, ?_⟩
    show s.q.count - 1 ≤ census QueuePc.WokenEmpty (Function.update pc' t .outside)
    split at hmove <;> split at hmove <;> omega
  · -- the slot freed is spoken for by the putter the signal wakes
    intro u y hu
    have hu := asleep_of_signal hsig hu (by simp) (notFull_ne_asleepFull y)
    have hle := h.putters u y hu
    have hwoken : census QueuePc.WokenFull pc' = census QueuePc.WokenFull s.pc + 1 :=
      hsig.census_woken _ notFull_wokenFull (t := u) (by rw [hu]; rfl)
    have hmove := census_update QueuePc.WokenFull pc' t .outside
    rw [ht, if_neg hpc.not_wokenFull] at hmove
    show s.q.cap - (s.q.count - 1) ≤ census QueuePc.WokenFull (Function.update pc' t .outside)
    omega

theorem NoLostWakeup.putSleep {s : QueueState T α} {t : T} {x : α} (h : NoLostWakeup s)
    (hpc : (s.pc t).MayPut x) (hfull : s.q.count = s.q.cap) :
    NoLostWakeup { s with pc := Function.update s.pc t (.asleepFull x) } := by
  constructor
  · intro u hu
    obtain ⟨-, hu⟩ := of_update_eq hu (by simp)
    obtain ⟨hopen, hle⟩ := h.getters u hu
    have hmove := census_update QueuePc.WokenEmpty s.pc t (.asleepFull x)
    rw [if_neg hpc.not_wokenEmpty] at hmove
    refine ⟨hopen, ?_⟩
    show s.q.count ≤ census QueuePc.WokenEmpty (Function.update s.pc t (.asleepFull x))
    omega
  · -- a putter only falls asleep when no slot is free
    intro u y _
    show s.q.cap - s.q.count ≤ census QueuePc.WokenFull (Function.update s.pc t (.asleepFull x))
    omega

theorem NoLostWakeup.getSleep {s : QueueState T α} {t : T} (h : NoLostWakeup s)
    (hpc : (s.pc t).MayGet) (hempty : s.q.count = 0 ∧ s.q.closed = false) :
    NoLostWakeup { s with pc := Function.update s.pc t .asleepEmpty } := by
  constructor
  · -- a getter only falls asleep when there is no item and the queue is open
    intro u _
    refine ⟨hempty.2, ?_⟩
    show s.q.count ≤ census QueuePc.WokenEmpty (Function.update s.pc t .asleepEmpty)
    omega
  · intro u y hu
    obtain ⟨-, hu⟩ := of_update_eq hu (by simp)
    have hle := h.putters u y hu
    have hmove := census_update QueuePc.WokenFull s.pc t .asleepEmpty
    rw [if_neg hpc.not_wokenFull] at hmove
    show s.q.cap - s.q.count ≤ census QueuePc.WokenFull (Function.update s.pc t .asleepEmpty)
    omega

theorem NoLostWakeup.getNull {s : QueueState T α} {t : T} (h : NoLostWakeup s)
    (hpc : (s.pc t).MayGet) (hclosed : s.q.closed = true) :
    NoLostWakeup ⟨s.q, Function.update s.pc t .outside⟩ := by
  constructor
  · intro u hu
    obtain ⟨-, hu⟩ := of_update_eq hu (by simp)
    rw [(h.getters u hu).1] at hclosed
    cases hclosed
  · intro u y hu
    obtain ⟨-, hu⟩ := of_update_eq hu (by simp)
    have hle := h.putters u y hu
    have hmove := census_update QueuePc.WokenFull s.pc t .outside
    rw [if_neg hpc.not_wokenFull] at hmove
    show s.q.cap - s.q.count ≤ census QueuePc.WokenFull (Function.update s.pc t .outside)
    omega

omit [DecidableEq T] in
theorem NoLostWakeup.close {s : QueueState T α} (h : NoLostWakeup s) :
    NoLostWakeup ⟨ioQueueClose s.q, broadcast notEmpty s.pc⟩ := by
  constructor
  · -- the broadcast leaves no getter asleep
    intro u hu
    cases hcv : notEmpty (s.pc u) with
    | none =>
      have hsame := (broadcast_eq_of_awake hcv).symm.trans hu
      rw [hsame] at hcv
      cases hcv
    | some y =>
      have hy := (broadcast_eq_of_asleep hcv).symm.trans hu
      rw [hy] at hcv
      exact absurd hcv (notEmpty_ne_asleepEmpty _)
  · intro u y hu
    have hold : s.pc u = .asleepFull y := by
      cases hcv : notEmpty (s.pc u) with
      | none => exact (broadcast_eq_of_awake hcv).symm.trans hu
      | some z =>
        have hz := (broadcast_eq_of_asleep hcv).symm.trans hu
        rw [hz] at hcv
        exact absurd hcv (notEmpty_ne_asleepFull y _)
    have hsame := census_broadcast_of_iff QueuePc.WokenFull s.pc notEmpty_wokenFull
    rw [hsame]
    exact h.putters u y hold

theorem NoLostWakeup.spurious {s : QueueState T α} {t : T} {pc : QueuePc α}
    (h : NoLostWakeup s) (hwake : notFull (s.pc t) = some pc ∨ notEmpty (s.pc t) = some pc) :
    NoLostWakeup { s with pc := Function.update s.pc t pc } := by
  -- waking a thread unasked only adds to the woken ones
  constructor
  · intro u hu
    have hne : pc ≠ .asleepEmpty := by
      rintro rfl
      rcases hwake with hw | hw
      · exact notFull_ne_asleepEmpty _ hw
      · exact notEmpty_ne_asleepEmpty _ hw
    obtain ⟨-, hu⟩ := of_update_eq hu hne
    obtain ⟨hopen, hle⟩ := h.getters u hu
    have hmove := census_update QueuePc.WokenEmpty s.pc t pc
    -- it has not been counted yet, for it was asleep
    have hold : ¬ (s.pc t).WokenEmpty := by
      rcases hwake with hw | hw
      · obtain ⟨x, hx, -⟩ := notFull_eq_some hw
        rw [hx]
        intro hw'
        cases hw'
      · exact (notEmpty_wokenEmpty _ _ hw).1
    rw [if_neg hold] at hmove
    refine ⟨hopen, ?_⟩
    show s.q.count ≤ census QueuePc.WokenEmpty (Function.update s.pc t pc)
    omega
  · intro u y hu
    have hne : pc ≠ .asleepFull y := by
      rintro rfl
      rcases hwake with hw | hw
      · exact notFull_ne_asleepFull y _ hw
      · exact notEmpty_ne_asleepFull y _ hw
    obtain ⟨-, hu⟩ := of_update_eq hu hne
    have hle := h.putters u y hu
    have hmove := census_update QueuePc.WokenFull s.pc t pc
    -- nor has it among the woken putters
    have hold : ¬ (s.pc t).WokenFull := by
      rcases hwake with hw | hw
      · exact (notFull_wokenFull _ _ hw).1
      · obtain ⟨hx, -⟩ := notEmpty_eq_some hw
        rw [hx]
        rintro ⟨x, hx'⟩
        cases hx'
    rw [if_neg hold] at hmove
    show s.q.cap - s.q.count ≤ census QueuePc.WokenFull (Function.update s.pc t pc)
    omega

/-- Every step keeps the counting invariant. -/
theorem NoLostWakeup.step {s s' : QueueState T α} {e : QueueEvent T α} (hwf : s.q.Wf)
    (h : NoLostWakeup s) (hs : QueueStep s e s') : NoLostWakeup s' := by
  cases hs with
  | putSleep hpc hq =>
    have hfull := (ioQueuePut_eq_none_iff hwf _).mp hq
    rw [hwf.length_items] at hfull
    exact h.putSleep hpc hfull
  | put hpc hq hsig => exact h.put hpc hq hsig
  | getSleep hpc hq =>
    obtain ⟨hitems, hopen⟩ := (ioQueueGet_eq_none_iff hwf).mp hq
    exact h.getSleep hpc ⟨hwf.items_eq_nil_iff.mp hitems, hopen⟩
  | get hpc hq hsig =>
    have hcount : s.q.count ≠ 0 := by
      have hitems := (hwf.get_some hq).2
      rw [← hwf.length_items, hitems]
      exact Nat.succ_ne_zero _
    exact h.get hpc hq hcount hsig
  | getNull hpc hq =>
    obtain ⟨hclosed, -, rfl⟩ := hwf.get_null hq
    exact h.getNull hpc hclosed
  | close hpc => exact h.close
  | spuriousFull hw => exact h.spurious (Or.inl hw)
  | spuriousEmpty hw => exact h.spurious (Or.inr hw)

theorem noLostWakeup_reachable {cap : ℕ} (hcap : 1 ≤ cap) {s : QueueState T α}
    (h : (queueLts T α cap).Reachable s) : NoLostWakeup s := by
  obtain ⟨tr, h⟩ := h
  refine h.induction (P := fun _ s => NoLostWakeup s) ?_ ?_
  · intro s hs
    constructor
    · intro t ht
      rw [hs.2 t] at ht
      cases ht
    · intro t x ht
      rw [hs.2 t] at ht
      cases ht
  · intro tr s e s' hex ih hs
    exact ih.step (queue_wf hcap ⟨tr, hex⟩).1 hs

/-- **No wake-up is lost.**  While a getter sleeps the queue is open and holds no
more items than there are woken getters yet to re-run their check; while a putter
sleeps no more slots are free than there are such putters.  So when every getter
in the queue's functions sleeps there is nothing to get and no end to be told of,
and when every putter sleeps there is no slot to put to. -/
theorem ioQueue_no_lost_wakeup {cap : ℕ} (hcap : 1 ≤ cap) {s : QueueState T α}
    (h : (queueLts T α cap).Reachable s) :
    ((∃ t, s.pc t = .asleepEmpty) →
      s.q.closed = false ∧ s.q.count ≤ census QueuePc.WokenEmpty s.pc) ∧
    ((∃ t x, s.pc t = .asleepFull x) →
      s.q.cap - s.q.count ≤ census QueuePc.WokenFull s.pc) ∧
    ((∃ t, s.pc t = .asleepEmpty) → (∀ t, s.pc t ≠ .wokenEmpty) →
      s.q.count = 0 ∧ s.q.closed = false) ∧
    ((∃ t x, s.pc t = .asleepFull x) → (∀ t x, s.pc t ≠ .wokenFull x) →
      s.q.count = s.q.cap) := by
  have hinv := noLostWakeup_reachable hcap h
  have hwf := (queue_wf hcap h).1
  refine ⟨?_, ?_, ?_, ?_⟩
  · intro ⟨t, ht⟩
    exact hinv.getters t ht
  · intro ⟨t, x, ht⟩
    exact hinv.putters t x ht
  · intro ⟨t, ht⟩ hnone
    obtain ⟨hopen, hle⟩ := hinv.getters t ht
    have hzero := (census_eq_zero_iff QueuePc.WokenEmpty s.pc).mpr hnone
    exact ⟨by omega, hopen⟩
  · intro ⟨t, x, ht⟩ hnone
    have hle := hinv.putters t x ht
    have hzero : census QueuePc.WokenFull s.pc = 0 := by
      rw [census_eq_zero_iff]
      rintro u ⟨y, hy⟩
      exact hnone u y hy
    have hcount := hwf.count_le
    omega

theorem ioQueue_no_lost_wakeup_one_slot : ∃ s : QueueState Bool ℕ,
    (queueLts Bool ℕ 1).Reachable s ∧ s.pc true = .asleepEmpty ∧ s.q.closed = false := by
  let s₀ : QueueState Bool ℕ := ⟨ioQueueNew ℕ 1, fun _ => .outside⟩
  have h₀ : (queueLts Bool ℕ 1).Exec [] s₀ := Lts.Exec.init ⟨rfl, fun _ => rfl⟩
  have h₁ := h₀.snoc (QueueStep.getSleep (t := true) (Or.inl rfl) rfl)
  exact ⟨_, ⟨_, h₁⟩, rfl, ((ioQueue_no_lost_wakeup (Nat.le_refl 1) ⟨_, h₁⟩).1 ⟨true, rfl⟩).1⟩

end Tsag
