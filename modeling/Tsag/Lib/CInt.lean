import Mathlib.Data.Int.Order.Basic
import Mathlib.Tactic.NormNum

/-!
# C integers

The conversions and the wrapping operations that the code applies to integers it
does not bound itself.

## Main definitions

* `intMax`, `intOfLong` — the largest `int`, and the conversion of a `long` to one.
* `uint32Add`, `sizeSub` — wrapping addition of `uint32_t`, subtraction of `size_t`.
-/

/-- `INT_MAX`. -/
def intMax : ℕ := 2 ^ 31 - 1

/-- The conversion to `int` of a `long`. -/
def intOfLong (n : ℕ) : ℤ := Int.bmod n (2 ^ 32)

/-- The sum of two `uint32_t`. -/
def uint32Add (a b : ℕ) : ℕ := (a + b) % 2 ^ 32

/-- The difference of two `size_t`. -/
def sizeSub (a b : ℕ) : ℕ := (2 ^ 64 + a - b) % 2 ^ 64

theorem intOfLong_eq {n : ℕ} (h : n ≤ intMax) : intOfLong n = n := by
  unfold intMax at h
  unfold intOfLong
  rw [Int.bmod_eq_of_le] <;> omega

theorem uint32Add_eq {a b : ℕ} (h : a + b < 2 ^ 32) : uint32Add a b = a + b := Nat.mod_eq_of_lt h

theorem sizeSub_eq {a b : ℕ} (hb : b ≤ a) (ha : a < 2 ^ 64) : sizeSub a b = a - b := by
  unfold sizeSub
  omega
