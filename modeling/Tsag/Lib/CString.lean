import Mathlib.Data.List.Lex
import Mathlib.Data.List.TakeWhile
import Mathlib.Order.Lattice

/-!
# Bytes and C strings

A C string is a run of bytes ended by a NUL, so it holds no NUL itself; `CStr`
carries that as a field.  A buffer that may hold a NUL is a plain list of bytes,
and what a reader of C strings makes of it is `CStr.ofBuffer`.

## Main definitions

* `ascii s` — the bytes of an ASCII literal; `isprint` — the C-locale predicate.
* `CStr`, `CStr.ofBuffer` — C strings, and the string a buffer reads as.
* `strcmp` — comparison as unsigned bytes, the terminating NUL below every byte.

## Main results

* `strcmp_eq_lt_iff`, `strcmp_eq_eq_iff` — `strcmp` decides the lexicographic
  order of C strings, which is linear.
-/

/-- A buffer's contents. -/
abbrev Bytes := List UInt8

/-- The bytes of an ASCII literal. -/
def ascii (s : String) : Bytes := s.toList.map fun c => UInt8.ofNat c.toNat

namespace Byte

/-- Horizontal tab. -/
def tab : UInt8 := 9
/-- Line feed. -/
def newline : UInt8 := 10
/-- Carriage return. -/
def cr : UInt8 := 13
/-- The dollar sign. -/
def dollar : UInt8 := 36
/-- The full stop. -/
def dot : UInt8 := 46
/-- The slash. -/
def slash : UInt8 := 47
/-- The backslash. -/
def backslash : UInt8 := 92

end Byte

/-- The printing characters of the C locale. -/
def isprint (c : UInt8) : Bool := 0x20 ≤ c && c ≤ 0x7e

/-! ### Separators -/

/-- What precedes the first separator is determined. -/
theorem append_cons_inj_left {c : UInt8} {a a' b b' : Bytes} (ha : c ∉ a) (ha' : c ∉ a')
    (h : a ++ c :: b = a' ++ c :: b') : a = a' ∧ b = b' := by
  have htake : ∀ (a b : Bytes), c ∉ a → (a ++ c :: b).takeWhile (· ≠ c) = a := by
    intro a b ha
    rw [List.takeWhile_append_of_pos fun x hx => by simpa using fun he : x = c => ha (he ▸ hx)]
    simp
  have heq : a = a' := by rw [← htake a b ha, h, htake a' b' ha']
  subst heq
  exact ⟨rfl, List.tail_eq_of_cons_eq (List.append_cancel_left h)⟩

/-- What follows the last separator is determined. -/
theorem append_cons_inj_right {c : UInt8} {a a' b b' : Bytes} (hb : c ∉ b) (hb' : c ∉ b')
    (h : a ++ c :: b = a' ++ c :: b') : a = a' ∧ b = b' := by
  have hrev := congrArg List.reverse h
  simp only [List.reverse_append, List.reverse_cons, List.append_assoc, List.singleton_append]
    at hrev
  obtain ⟨hbb, haa⟩ := append_cons_inj_left (by simpa using hb) (by simpa using hb') hrev
  exact ⟨List.reverse_injective haa, List.reverse_injective hbb⟩

/-! ### C strings -/

/-- A C string: the bytes before its terminating NUL. -/
@[ext] structure CStr where
  /-- The bytes before the terminator. -/
  bytes : Bytes
  no_nul : (0 : UInt8) ∉ bytes
  deriving DecidableEq

namespace CStr

theorem ofBuffer_no_nul (b : Bytes) : (0 : UInt8) ∉ b.takeWhile (· ≠ 0) := by
  intro h
  simpa using List.mem_takeWhile_imp h

/-- The string a reader of C strings finds in a buffer: what precedes its first NUL. -/
def ofBuffer (b : Bytes) : CStr := ⟨b.takeWhile (· ≠ 0), ofBuffer_no_nul b⟩

/-- The C string of an ASCII literal. -/
def lit (s : String) : CStr := ofBuffer (ascii s)

theorem bytes_ofBuffer (b : Bytes) : (ofBuffer b).bytes = b.takeWhile (· ≠ 0) := rfl

theorem mem_of_mem_ofBuffer {b : Bytes} {c : UInt8} (h : c ∈ (ofBuffer b).bytes) : c ∈ b :=
  (List.takeWhile_prefix _).subset h

/-- A buffer without a NUL is read whole. -/
theorem bytes_ofBuffer_of_notMem {b : Bytes} (h : (0 : UInt8) ∉ b) : (ofBuffer b).bytes = b := by
  rw [bytes_ofBuffer, List.takeWhile_eq_self_iff]
  intro x hx
  simpa using fun h0 : x = 0 => h (h0 ▸ hx)

/-- What follows a NUL is not read. -/
theorem ofBuffer_append_nul (b rest : Bytes) : ofBuffer (b ++ 0 :: rest) = ofBuffer b := by
  apply CStr.ext
  rw [bytes_ofBuffer, bytes_ofBuffer]
  induction b with
  | nil => rfl
  | cons c b ih =>
    rw [List.cons_append, List.takeWhile_cons, List.takeWhile_cons, ih]

end CStr

/-! ### Comparison -/

/-- The lexicographic comparison of two byte runs, as unsigned bytes. -/
def strcmpBytes : Bytes → Bytes → Ordering
  | [], [] => .eq
  | [], _ :: _ => .lt
  | _ :: _, [] => .gt
  | a :: as, b :: bs =>
      if a = b then strcmpBytes as bs else if a < b then .lt else .gt

/-- `strcmp`, of which only the sign of the result is used: the terminating NUL
is below every byte of a string, so a proper prefix comes first. -/
def strcmp (a b : CStr) : Ordering := strcmpBytes a.bytes b.bytes

/-- The byte values of a string, in a type Mathlib orders linearly. -/
def CStr.values (a : CStr) : List ℕ := a.bytes.map UInt8.toNat

theorem CStr.values_injective : Function.Injective CStr.values := by
  intro a b h
  have hbytes : a.bytes = b.bytes :=
    List.map_injective_iff.mpr (fun _ _ => UInt8.toNat_inj.mp) h
  exact CStr.ext hbytes

/-- C strings in lexicographic order. -/
instance : LinearOrder CStr := LinearOrder.lift' CStr.values CStr.values_injective

theorem CStr.lt_iff_values (a b : CStr) : a < b ↔ a.values < b.values := Iff.rfl

theorem strcmpBytes_eq_eq_iff : ∀ a b : Bytes, strcmpBytes a b = .eq ↔ a = b := by
  intro a
  induction a with
  | nil => intro b; cases b <;> simp [strcmpBytes]
  | cons x a ih =>
    intro b
    cases b with
    | nil => simp [strcmpBytes]
    | cons y b =>
      rw [strcmpBytes, List.cons.injEq]
      by_cases hxy : x = y
      · rw [if_pos hxy, ih]
        simp [hxy]
      · rw [if_neg hxy]
        split <;> simp [hxy]

theorem strcmpBytes_eq_lt_iff : ∀ a b : Bytes,
    strcmpBytes a b = .lt ↔ a.map UInt8.toNat < b.map UInt8.toNat := by
  intro a
  induction a with
  | nil => intro b; cases b <;> simp [strcmpBytes]
  | cons x a ih =>
    intro b
    cases b with
    | nil => simp [strcmpBytes]
    | cons y b =>
      rw [strcmpBytes, List.map_cons, List.map_cons, List.cons_lt_cons_iff]
      by_cases hxy : x = y
      · rw [if_pos hxy, ih]
        simp [hxy]
      · rw [if_neg hxy]
        have hne : x.toNat ≠ y.toNat := fun h => hxy (UInt8.toNat_inj.mp h)
        split
        · next hlt => simp [UInt8.lt_iff_toNat_lt.mp hlt]
        · next hlt =>
          have hle : y.toNat ≤ x.toNat := UInt8.le_iff_toNat_le.mp (UInt8.not_lt.mp hlt)
          simp [hne, hle]

/-- **`strcmp` finds two strings equal exactly when they are.** -/
theorem strcmp_eq_eq_iff (a b : CStr) : strcmp a b = .eq ↔ a = b := by
  rw [strcmp, strcmpBytes_eq_eq_iff, CStr.ext_iff]

/-- **`strcmp` is negative exactly on the lexicographic order.** -/
theorem strcmp_eq_lt_iff (a b : CStr) : strcmp a b = .lt ↔ a < b := by
  rw [strcmp, strcmpBytes_eq_lt_iff, CStr.lt_iff_values]
  rfl

theorem strcmp_ne_gt_iff (a b : CStr) : strcmp a b ≠ .gt ↔ a ≤ b := by
  rw [le_iff_lt_or_eq, ← strcmp_eq_lt_iff, ← strcmp_eq_eq_iff]
  cases strcmp a b <;> simp

/-- Runs that end with a separator below all their bytes are ordered as the runs
without it. -/
theorem append_cons_lt {c : ℕ} {u v x y : List ℕ} (hv : ∀ b ∈ v, c < b) (h : u < v) :
    u ++ c :: x < v ++ c :: y := by
  induction u generalizing v with
  | nil =>
    cases v with
    | nil => exact absurd h (lt_irrefl _)
    | cons b v =>
      rw [List.nil_append, List.cons_append, List.cons_lt_cons_iff]
      exact Or.inl (hv b (List.mem_cons_self ..))
  | cons a u ih =>
    cases v with
    | nil => exact absurd h (List.not_lt_nil _)
    | cons b v =>
      rw [List.cons_append, List.cons_append, List.cons_lt_cons_iff]
      rw [List.cons_lt_cons_iff] at h
      rcases h with hlt | ⟨heq, hlt⟩
      · exact Or.inl hlt
      · exact Or.inr ⟨heq, ih (fun b hb => hv b (List.mem_cons_of_mem _ hb)) hlt⟩
