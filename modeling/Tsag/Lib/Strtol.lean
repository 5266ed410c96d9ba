import Mathlib.Data.Nat.Digits.Defs
import Tsag.Lib.CInt
import Tsag.Lib.CString

/-!
# Reading numbers

`strtol` in base ten and in the C locale: white space, a sign, digits, and a value that is
clamped to the range of `long`.

## Main definitions

* `isspace`, `isdigit` — the C-locale predicates.
* `decimal`, `digitBytes` — the number that digits stand for, and the digits of a number.
* `strtol` — the value, what `*end` is left at, and whether `errno` is `ERANGE`.

## Main results

* `decimal_digitBytes` — a number is read back from its digits.
* `strtol_spec` — the value of spaces, a sign and digits.
* `strtol_rest_eq_nil` — only such a text is read to its end.
-/

/-- `LONG_MAX`. -/
def longMax : ℤ := 2 ^ 63 - 1

/-- `LONG_MIN`. -/
def longMin : ℤ := -2 ^ 63

/-- The white space of the C locale. -/
def isspace (c : UInt8) : Bool := c == 0x20 || (0x09 ≤ c && c ≤ 0x0d)

/-- The decimal digits. -/
def isdigit (c : UInt8) : Bool := 0x30 ≤ c && c ≤ 0x39

theorem isdigit_iff {c : UInt8} : isdigit c = true ↔ 48 ≤ c.toNat ∧ c.toNat ≤ 57 := by
  simp only [isdigit, Bool.and_eq_true, decide_eq_true_eq, UInt8.le_iff_toNat_le]
  rfl

/-! ### Digits -/

/-- What a digit stands for. -/
def digitVal (c : UInt8) : ℕ := c.toNat - 48

/-- What digits stand for, the most significant first. -/
def decimal (b : Bytes) : ℕ := b.foldl (fun v c => 10 * v + digitVal c) 0

/-- The digits of a number that is not zero. -/
def digitBytes (n : ℕ) : Bytes := (Nat.digits 10 n).reverse.map fun d => UInt8.ofNat (48 + d)

theorem decimal_eq_ofDigits (b : Bytes) :
    decimal b = Nat.ofDigits 10 (b.reverse.map digitVal) := by
  rw [Nat.ofDigits_eq_foldr, List.foldr_map, List.foldr_reverse, decimal]
  congr 1
  funext v c
  push_cast
  ring

theorem toNat_digit {d : ℕ} (hd : d < 10) : (UInt8.ofNat (48 + d)).toNat = 48 + d := by
  rw [UInt8.toNat_ofNat']
  omega

theorem isdigit_of_mem_digitBytes {n : ℕ} {c : UInt8} (h : c ∈ digitBytes n) :
    isdigit c = true := by
  obtain ⟨d, hd, rfl⟩ := List.mem_map.mp h
  have hlt := Nat.digits_lt_base (by decide) (List.mem_reverse.mp hd)
  rw [isdigit_iff, toNat_digit hlt]
  omega

/-- **A number is read back from its digits.** -/
theorem decimal_digitBytes (n : ℕ) : decimal (digitBytes n) = n := by
  have hmap :
      (Nat.digits 10 n).map (fun d => digitVal (UInt8.ofNat (48 + d))) = Nat.digits 10 n := by
    apply List.map_congr_left _ |>.trans (List.map_id _)
    intro d hd
    rw [digitVal, toNat_digit (Nat.digits_lt_base (by decide) hd), Nat.add_sub_cancel_left, id]
  rw [decimal_eq_ofDigits, digitBytes, ← List.map_reverse, List.reverse_reverse, List.map_map]
  exact (congrArg _ hmap).trans (Nat.ofDigits_digits 10 n)

/-! ### `strtol` -/

/-- What `strtol` does. -/
structure LongRead where
  value : ℤ
  /-- The text from `*end` on. -/
  rest : Bytes
  /-- `errno` has been set to `ERANGE`. -/
  erange : Bool
  deriving DecidableEq

/-- Whether there is a minus sign, and the text after the sign. -/
def readSign : Bytes → Bool × Bytes
  | [] => (false, [])
  | c :: s => if c = 0x2d then (true, s) else if c = 0x2b then (false, s) else (false, c :: s)

/-- The `long` for a value, and whether it is another one. -/
def clampLong (v : ℤ) : ℤ × Bool :=
  if v < longMin then (longMin, true) else if longMax < v then (longMax, true) else (v, false)

/-- `strtol(nptr, &end, 10)`. -/
def strtol (nptr : Bytes) : LongRead :=
  let (minus, s) := readSign (nptr.dropWhile isspace)
  let digits := s.takeWhile isdigit
  -- with no digits `*end` is `nptr`, the spaces and the sign included
  if digits = [] then ⟨0, nptr, false⟩
  else
    let (value, erange) := clampLong (if minus then -(decimal digits : ℤ) else decimal digits)
    ⟨value, s.dropWhile isdigit, erange⟩

/-- The signs a number may have. -/
inductive Sign
  | absent
  | plus
  | minus
  deriving DecidableEq

def Sign.bytes : Sign → Bytes
  | absent => []
  | plus => [0x2b]
  | minus => [0x2d]

def Sign.apply : Sign → ℕ → ℤ
  | absent, n | plus, n => n
  | minus, n => -n

theorem takeWhile_digits {digits rest : Bytes} (h : ∀ c ∈ digits, isdigit c = true)
    (hrest : rest.head?.all fun c => !isdigit c) :
    (digits ++ rest).takeWhile isdigit = digits ∧ (digits ++ rest).dropWhile isdigit = rest := by
  rw [List.takeWhile_append_of_pos h, List.dropWhile_append_of_pos h]
  cases rest with
  | nil => simp
  | cons c rest =>
    have hc : isdigit c = false := by simpa using hrest
    simp [hc]

theorem readSign_bytes (sign : Sign) {c : UInt8} (hc : isdigit c = true) (s : Bytes) :
    readSign (sign.bytes ++ c :: s) = (sign == .minus, c :: s) := by
  have hplus : c ≠ 0x2b := fun he => absurd hc (by rw [he]; decide)
  have hminus : c ≠ 0x2d := fun he => absurd hc (by rw [he]; decide)
  cases sign with
  | absent => exact (if_neg hminus).trans (if_neg hplus)
  | plus => rfl
  | minus => rfl

theorem exists_sign (s : Bytes) : ∃ sign : Sign, s = sign.bytes ++ (readSign s).2 := by
  cases s with
  | nil => exact ⟨.absent, rfl⟩
  | cons c s =>
    by_cases hminus : c = 0x2d
    · exact ⟨.minus, by rw [hminus]; rfl⟩
    · by_cases hplus : c = 0x2b
      · exact ⟨.plus, by rw [hplus]; rfl⟩
      · exact ⟨.absent, by rw [readSign, if_neg hminus, if_neg hplus]; rfl⟩

/-- **What `strtol` makes of spaces, a sign and digits.** -/
theorem strtol_spec {spaces digits : Bytes} (sign : Sign) (rest : Bytes)
    (hspaces : ∀ c ∈ spaces, isspace c = true) (hdigits : ∀ c ∈ digits, isdigit c = true)
    (hne : digits ≠ []) (hrest : rest.head?.all fun c => !isdigit c) :
    strtol (spaces ++ (sign.bytes ++ (digits ++ rest)))
      = ⟨(clampLong (sign.apply (decimal digits))).1, rest,
          (clampLong (sign.apply (decimal digits))).2⟩ := by
  obtain ⟨d, digits', rfl⟩ := List.exists_cons_of_ne_nil hne
  have hd := hdigits d List.mem_cons_self
  obtain ⟨htake, hdrop⟩ := takeWhile_digits hdigits hrest
  -- neither a sign nor a digit is white space
  have hspace : ∀ s, (sign.bytes ++ d :: s).dropWhile isspace = sign.bytes ++ d :: s := by
    have hdspace : isspace d = false := by
      rw [isdigit_iff] at hd
      have hne : d ≠ 0x20 := fun he => absurd hd.1 (by rw [he]; decide)
      simp only [isspace, Bool.or_eq_false_iff, beq_eq_false_iff_ne, Bool.and_eq_false_iff,
        decide_eq_false_iff_not, UInt8.not_le, UInt8.lt_iff_toNat_lt]
      exact ⟨hne, Or.inr (Nat.lt_of_lt_of_le (by decide) hd.1)⟩
    intro s
    cases sign with
    | absent => exact List.dropWhile_cons_of_neg (by simp [hdspace])
    | plus => rfl
    | minus => rfl
  have hsign : readSign ((spaces ++ (sign.bytes ++ (d :: digits' ++ rest))).dropWhile isspace)
      = (sign == .minus, d :: digits' ++ rest) := by
    rw [List.dropWhile_append_of_pos hspaces, List.cons_append, hspace, readSign_bytes sign hd]
  have happly : (if (sign == .minus) = true then -(decimal (d :: digits') : ℤ)
      else decimal (d :: digits')) = sign.apply (decimal (d :: digits')) := by
    cases sign <;> rfl
  simp only [strtol, hsign, htake, hdrop, happly]
  rw [if_neg hne]

/-- **Only spaces, a sign and digits are read to the end**, but for the empty text. -/
theorem strtol_rest_eq_nil {nptr : Bytes} (h : (strtol nptr).rest = []) (hne : nptr ≠ []) :
    ∃ spaces sign digits, (∀ c ∈ spaces, isspace c = true) ∧ (∀ c ∈ digits, isdigit c = true) ∧
      digits ≠ [] ∧ nptr = spaces ++ (Sign.bytes sign ++ digits) := by
  have hsplit := List.takeWhile_append_dropWhile (p := isspace) (l := nptr)
  obtain ⟨sign, hsign⟩ := exists_sign (nptr.dropWhile isspace)
  have htext := List.takeWhile_append_dropWhile (p := isdigit)
    (l := (readSign (nptr.dropWhile isspace)).2)
  simp only [strtol] at h
  by_cases hdigits : (readSign (nptr.dropWhile isspace)).2.takeWhile isdigit = []
  · rw [if_pos hdigits] at h
    exact absurd h hne
  · rw [if_neg hdigits] at h
    have hrest : (readSign (nptr.dropWhile isspace)).2.dropWhile isdigit = [] := h
    rw [hrest, List.append_nil] at htext
    refine ⟨nptr.takeWhile isspace, sign, (readSign (nptr.dropWhile isspace)).2.takeWhile isdigit,
      fun c hc => List.mem_takeWhile_imp hc, fun c hc => List.mem_takeWhile_imp hc, hdigits, ?_⟩
    rw [htext, ← hsign, hsplit]
