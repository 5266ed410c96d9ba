import Tsag.Lib.Census

/-!
# Condition variables

Each thread is at some point of its program.  A condition variable is given by
the points at which a thread sleeps on it, each with the point the thread is at
once it has been woken and has yet to take the lock again.  A signal wakes one
sleeper if there is one, whichever it likes; a broadcast wakes all.

## Main definitions

* `Signal cv f f'` — a signal on `cv` may take the threads from `f` to `f'`.
* `broadcast cv f` — where a broadcast on `cv` leaves the threads.

## Main results

* `Signal.census_woken`, `Signal.census_of_iff`, `census_broadcast_of_iff` — how a
  wake-up changes a count.
-/

variable {T S : Type*}

/-- The point each sleeping point of a condition variable is woken to. -/
abbrev Condvar (S : Type*) := S → Option S

/-- A signal on `cv` wakes one of its sleepers, or nobody when nobody sleeps. -/
inductive Signal [DecidableEq T] (cv : Condvar S) (f : T → S) : (T → S) → Prop
  | wake {t : T} {x : S} : cv (f t) = some x → Signal cv f (Function.update f t x)
  | nobody : (∀ t, cv (f t) = none) → Signal cv f f

/-- A broadcast on `cv` wakes all of its sleepers. -/
def broadcast (cv : Condvar S) (f : T → S) : T → S := fun t => (cv (f t)).getD (f t)

theorem broadcast_eq_of_asleep {cv : Condvar S} {f : T → S} {t : T} {x : S}
    (h : cv (f t) = some x) : broadcast cv f t = x := by
  simp [broadcast, h]

theorem broadcast_eq_of_awake {cv : Condvar S} {f : T → S} {t : T} (h : cv (f t) = none) :
    broadcast cv f t = f t := by
  simp [broadcast, h]

variable [DecidableEq T] {cv : Condvar S} {f f' : T → S}

/-- A signal leaves alone the threads that do not sleep on the condition variable. -/
theorem Signal.eq_of_awake (h : Signal cv f f') {t : T} (ht : cv (f t) = none) : f' t = f t := by
  cases h with
  | nobody _ => rfl
  | @wake u x hu =>
    rw [Function.update_of_ne]
    rintro rfl
    rw [ht] at hu
    cases hu

/-- After a signal a thread is where it was, or woken. -/
theorem Signal.eq_or_woken (h : Signal cv f f') (t : T) : f' t = f t ∨ cv (f t) = some (f' t) := by
  cases h with
  | nobody _ => exact Or.inl rfl
  | @wake u x hu =>
    by_cases htu : t = u
    · subst htu
      exact Or.inr (by rw [hu, Function.update_self])
    · exact Or.inl (Function.update_of_ne htu _ _)

variable [Fintype T] (p : S → Prop) [DecidablePred p]

/-- When woken points count and sleeping points do not, a signal raises the
count by one if anybody sleeps. -/
theorem Signal.census_woken (h : Signal cv f f')
    (hp : ∀ a b, cv a = some b → ¬ p a ∧ p b) {t : T} {x : S} (ht : cv (f t) = some x) :
    census p f' = census p f + 1 := by
  cases h with
  | nobody hnone =>
    rw [hnone t] at ht
    cases ht
  | @wake u y hu =>
    obtain ⟨hold, hnew⟩ := hp _ _ hu
    have := census_update p f u y
    rw [if_neg hold, if_pos hnew] at this
    omega

/-- When waking a thread does not change whether it counts, a signal does not
change the count. -/
theorem Signal.census_of_iff (h : Signal cv f f') (hp : ∀ a b, cv a = some b → (p a ↔ p b)) :
    census p f' = census p f := by
  cases h with
  | nobody _ => rfl
  | @wake u y hu =>
    have := census_update p f u y
    simp only [hp _ _ hu] at this
    omega

omit [DecidableEq T] in
/-- The same of a broadcast. -/
theorem census_broadcast_of_iff (f : T → S) (hp : ∀ a b, cv a = some b → (p a ↔ p b)) :
    census p (broadcast cv f) = census p f := by
  unfold census
  congr 1
  apply Finset.filter_congr
  intro t _
  cases ht : cv (f t) with
  | none => rw [broadcast_eq_of_awake ht]
  | some x => rw [broadcast_eq_of_asleep ht, hp _ _ ht]
