import Mathlib.Data.List.GetD
import Mathlib.Data.List.Range
import Mathlib.Data.Nat.ModEq

/-!
# Circular buffers

Reading `n` slots of a buffer of `cap` slots in order, from a position on and
back to the start at the end.

## Main definitions

* `ringRead d buf cap head n` — the `n` slots from `head` on, `d` where there is none.

## Main results

* `ringRead_succ` — the first slot is the one at `head`.
* `ringRead_set` — writing the slot after the last one read appends to the reading.
-/

/-- The `n` slots of `buf` from position `head` on, wrapping at `cap`. -/
def ringRead {α : Type*} (d : α) (buf : List α) (cap head n : ℕ) : List α :=
  (List.range n).map fun i => buf.getD ((head + i) % cap) d

variable {α : Type*} (d : α) (buf : List α)

@[simp] theorem ringRead_zero (cap head : ℕ) : ringRead d buf cap head 0 = [] := rfl

@[simp] theorem length_ringRead (cap head n : ℕ) : (ringRead d buf cap head n).length = n := by
  simp [ringRead]

/-- The positions of two different offsets below the capacity are different. -/
theorem ring_index_ne {cap head i j : ℕ} (hi : i < j) (hj : j < cap) :
    (head + i) % cap ≠ (head + j) % cap := by
  intro h
  have hdvd : cap ∣ (head + j) - (head + i) := (Nat.modEq_iff_dvd' (by omega)).mp h
  have hle := Nat.le_of_dvd (by omega) hdvd
  omega

/-- Stepping past the first slot. -/
theorem ringRead_succ {cap head : ℕ} (hhead : head < cap) (n : ℕ) :
    ringRead d buf cap head (n + 1)
      = buf.getD head d :: ringRead d buf cap ((head + 1) % cap) n := by
  unfold ringRead
  rw [List.range_succ_eq_map, List.map_cons, List.map_map, Nat.add_zero,
    Nat.mod_eq_of_lt hhead]
  refine congrArg (buf.getD head d :: ·) (List.map_congr_left ?_)
  intro i _
  rw [Nat.mod_add_mod]
  show buf.getD ((head + (i + 1)) % cap) d = _
  rw [show head + (i + 1) = head + 1 + i by omega]

/-- Writing the slot after the last one read appends it to the reading. -/
theorem ringRead_set {cap head n : ℕ} (hlen : buf.length = cap) (hn : n < cap) (x : α) :
    ringRead d (buf.set ((head + n) % cap) x) cap head (n + 1)
      = ringRead d buf cap head n ++ [x] := by
  have hpos : (head + n) % cap < buf.length := hlen ▸ Nat.mod_lt _ (by omega)
  unfold ringRead
  rw [List.range_succ, List.map_append, List.map_singleton]
  congr 1
  · apply List.map_congr_left
    intro i hi
    rw [List.mem_range] at hi
    have hne : (head + i) % cap ≠ (head + n) % cap := ring_index_ne hi hn
    rw [List.getD_eq_getElem?_getD, List.getElem?_set_ne hne.symm, List.getD_eq_getElem?_getD]
  · rw [List.getD_eq_getElem?_getD, List.getElem?_set_self hpos, Option.getD_some]
