import Mathlib.Algebra.BigOperators.Group.Finset.Basic
import Mathlib.Algebra.BigOperators.Ring.Finset
import Mathlib.Data.Fintype.Card

/-!
# Counting threads by what they are doing

A concurrent system of finitely many threads keeps, for each thread, the point
of its program it has reached.  Counting invariants and termination measures
speak of the number of threads at certain points, or of what remains to be done
summed over the threads; one step moves one thread, so everything they need is
how the sum changes when one thread's point does.

## Main definitions

* `tally w f` — the weight `w` of the threads' points, summed over the threads.
* `census p f` — the number of threads whose point satisfies `p`.

## Main results

* `tally_update`, `census_update` — the sum and the count after one thread moves.
* `tally_eq_one` — a sum of one is the weight of a single thread.
-/

variable {T S : Type*} [Fintype T]

/-- The weight of the threads' points, summed over the threads. -/
def tally {M : Type*} [AddCommMonoid M] (w : S → M) (f : T → S) : M := ∑ t, w (f t)

/-- The number of threads `t` whose point `f t` satisfies `p`. -/
def census (p : S → Prop) [DecidablePred p] (f : T → S) : ℕ :=
  (Finset.univ.filter fun t => p (f t)).card

/-- Moving one thread takes its old weight out of the sum and puts its new one in. -/
theorem tally_update {M : Type*} [AddCommMonoid M] [DecidableEq T] (w : S → M) (f : T → S)
    (t : T) (x : S) : tally w (Function.update f t x) + w (f t) = tally w f + w x := by
  unfold tally
  rw [← Finset.add_sum_erase _ _ (Finset.mem_univ t),
    ← Finset.add_sum_erase Finset.univ (fun u => w (f u)) (Finset.mem_univ t)]
  have hrest : ∑ u ∈ Finset.univ.erase t, w (Function.update f t x u)
      = ∑ u ∈ Finset.univ.erase t, w (f u) := by
    apply Finset.sum_congr rfl
    intro u hu
    rw [Function.update_of_ne (Finset.ne_of_mem_erase hu)]
  rw [hrest, Function.update_self]
  ac_rfl

/-- A sum of one comes from one thread. -/
theorem tally_eq_one {w : S → ℕ} {f : T → S} (h : tally w f = 1) :
    ∃ t, w (f t) = 1 ∧ ∀ u, u ≠ t → w (f u) = 0 := by
  classical
  unfold tally at h
  obtain ⟨t, -, ht⟩ := Finset.exists_ne_zero_of_sum_ne_zero (h ▸ Nat.one_ne_zero)
  rw [← Finset.add_sum_erase _ _ (Finset.mem_univ t)] at h
  have hrest : ∑ u ∈ Finset.univ.erase t, w (f u) = 0 := by omega
  refine ⟨t, by omega, ?_⟩
  intro u hu
  exact Finset.sum_eq_zero_iff.mp hrest u (Finset.mem_erase.mpr ⟨hu, Finset.mem_univ u⟩)

section Census

variable (p : S → Prop) [DecidablePred p] (f : T → S)

/-- A count is the sum of a weight that is one at the points counted. -/
theorem census_eq_tally : census p f = tally (fun x => if p x then 1 else 0) f :=
  Finset.card_filter _ _

/-- Moving one thread takes its old point out of the count and puts its new one in. -/
theorem census_update [DecidableEq T] (t : T) (x : S) :
    census p (Function.update f t x) + (if p (f t) then 1 else 0)
      = census p f + (if p x then 1 else 0) := by
  rw [census_eq_tally, census_eq_tally]
  exact tally_update (fun x => if p x then 1 else 0) f t x

theorem census_pos_iff : 0 < census p f ↔ ∃ t, p (f t) := by
  unfold census
  rw [Finset.card_pos]
  constructor
  · rintro ⟨t, ht⟩
    exact ⟨t, (Finset.mem_filter.mp ht).2⟩
  · rintro ⟨t, ht⟩
    exact ⟨t, Finset.mem_filter.mpr ⟨Finset.mem_univ t, ht⟩⟩

theorem census_eq_zero_iff : census p f = 0 ↔ ∀ t, ¬ p (f t) := by
  have h := census_pos_iff p f
  constructor
  · intro h0 t ht
    have hpos := h.mpr ⟨t, ht⟩
    omega
  · intro hnone
    by_contra h0
    obtain ⟨t, ht⟩ := h.mp (Nat.pos_of_ne_zero h0)
    exact hnone t ht

end Census
