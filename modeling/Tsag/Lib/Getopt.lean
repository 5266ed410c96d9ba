import Tsag.Lib.CString

/-!
# Command line options

`getopt`, for an option string that does not begin with `+`, `-` or `:`.  An option may
share its word with others and with its argument; what is no option is an operand.  With
`permute` operands may precede options, otherwise the first one ends them.

## Main definitions

* `optLookup` — what an option string says of a character.
* `GetoptState`, `getopt` — the state between two calls, and a call.
* `CStr.optWord` — a word of options.

## Main results

* `getopt_short`, `getopt_attached`, `getopt_detached`, `getopt_missing`, `getopt_unknown` —
  what a call makes of a word of options.
* `getopt_operand`, `getopt_dashes`, `getopt_stop` — what it makes of the others.
* `getopt_size_lt` — every call that finds something leaves less.
-/

namespace Byte

/-- The hyphen. -/
def dash : UInt8 := 45
/-- The colon. -/
def colon : UInt8 := 58

end Byte

/-- Whether an option string has a character, and whether an argument goes with it. -/
def optLookup : Bytes → UInt8 → Option Bool
  | [], _ => none
  | x :: optstring, c =>
      if c = Byte.colon then none
      else if x = c then some (optstring.head? == some Byte.colon)
      else optLookup optstring c

/-- A call of `getopt` that does not return -1. -/
inductive GetoptRet
  | opt (c : UInt8) (optarg : Option CStr)
  /-- `'?'`: the option is not known, or its argument is missing. -/
  | bad (optopt : UInt8)
  deriving DecidableEq

/-- What `getopt` keeps between two calls. -/
structure GetoptState where
  /-- What is left of a word of options. -/
  next : Bytes
  /-- The words not looked at yet. -/
  args : List CStr
  /-- The operands passed over. -/
  operands : List CStr
  deriving DecidableEq

/-- The first option of a word of options, and what is left of the word. -/
def CStr.optWord (a : CStr) : Option (UInt8 × Bytes) :=
  match a.bytes with
  | d :: c :: next => if d = Byte.dash then some (c, next) else none
  | _ => none

/-- The word that ends the options. -/
def CStr.dashes : CStr := CStr.lit "--"

/-- One option. -/
def shortOption (optstring : Bytes) (c : UInt8) (s : GetoptState) : GetoptRet × GetoptState :=
  match optLookup optstring c with
  | none => (.bad c, s)
  | some false => (.opt c none, s)
  | some true =>
      if s.next ≠ [] then (.opt c (some (CStr.ofBuffer s.next)), { s with next := [] })
      else
        match s.args with
        | [] => (.bad c, s)
        | a :: args => (.opt c (some a), { s with args := args })

/-- The next word of options, and its first option. -/
def getoptWord (permute : Bool) (optstring : Bytes) :
    List CStr → List CStr → Option GetoptRet × GetoptState
  | [], operands => (none, ⟨[], [], operands⟩)
  | a :: args, operands =>
      if a = CStr.dashes then (none, ⟨[], args, operands⟩)
      else
        match a.optWord with
        | some (c, next) => (shortOption optstring c ⟨next, args, operands⟩).map some id
        | none =>
            if permute then getoptWord permute optstring args (operands ++ [a])
            else (none, ⟨[], a :: args, operands⟩)

/-- `getopt`; `none` is -1. -/
def getopt (permute : Bool) (optstring : Bytes) (s : GetoptState) :
    Option GetoptRet × GetoptState :=
  match s.next with
  | c :: next => (shortOption optstring c { s with next := next }).map some id
  | [] => getoptWord permute optstring s.args s.operands

/-! ### Words -/

variable {permute : Bool} {optstring : Bytes} {a : CStr} {args operands : List CStr} {c : UInt8}
  {next : Bytes}

theorem CStr.optWord_eq_some_iff :
    a.optWord = some (c, next) ↔ a.bytes = Byte.dash :: c :: next := by
  unfold CStr.optWord
  cases hbytes : a.bytes with
  | nil => simp
  | cons d rest =>
    cases rest with
    | nil => simp
    | cons c' rest =>
      by_cases hd : d = Byte.dash
      · simp [hd]
      · simp [hd]

/-- What follows the option of a word may be its argument. -/
theorem CStr.no_nul_of_optWord (h : a.optWord = some (c, next)) : (0 : UInt8) ∉ next := by
  rw [optWord_eq_some_iff] at h
  intro hmem
  exact a.no_nul (h ▸ List.mem_cons_of_mem _ (List.mem_cons_of_mem _ hmem))

theorem CStr.optWord_dashes : CStr.dashes.optWord = some (Byte.dash, []) := by decide

theorem ne_dashes_of_optWord (h : a.optWord = some (c, next)) (hc : c ≠ Byte.dash) :
    a ≠ CStr.dashes := by
  rintro rfl
  exact hc (Prod.mk.inj (Option.some.inj (h.symm.trans CStr.optWord_dashes))).1

theorem getopt_word (h : a.optWord = some (c, next)) (hc : a ≠ CStr.dashes) :
    getopt permute optstring ⟨[], a :: args, operands⟩
      = (shortOption optstring c ⟨next, args, operands⟩).map some id := by
  show getoptWord permute optstring (a :: args) operands = _
  rw [getoptWord, if_neg hc, h]

/-- An option without an argument. -/
theorem getopt_short (h : a.optWord = some (c, next)) (hc : a ≠ CStr.dashes)
    (hopt : optLookup optstring c = some false) :
    getopt permute optstring ⟨[], a :: args, operands⟩
      = (some (.opt c none), ⟨next, args, operands⟩) := by
  rw [getopt_word h hc, shortOption, hopt]
  rfl

/-- An option with its argument in the same word. -/
theorem getopt_attached (h : a.optWord = some (c, next)) (hc : a ≠ CStr.dashes)
    (hopt : optLookup optstring c = some true) (hnext : next ≠ []) :
    getopt permute optstring ⟨[], a :: args, operands⟩
      = (some (.opt c (some (CStr.ofBuffer next))), ⟨[], args, operands⟩) := by
  rw [getopt_word h hc, shortOption, hopt]
  simp only [if_pos hnext]
  rfl

/-- An option with the next word for its argument, whatever that is. -/
theorem getopt_detached {b : CStr} (h : a.optWord = some (c, [])) (hc : a ≠ CStr.dashes)
    (hopt : optLookup optstring c = some true) :
    getopt permute optstring ⟨[], a :: b :: args, operands⟩
      = (some (.opt c (some b)), ⟨[], args, operands⟩) := by
  rw [getopt_word h hc, shortOption, hopt]
  rfl

/-- An option without the argument it needs. -/
theorem getopt_missing (h : a.optWord = some (c, [])) (hc : a ≠ CStr.dashes)
    (hopt : optLookup optstring c = some true) :
    getopt permute optstring ⟨[], [a], operands⟩ = (some (.bad c), ⟨[], [], operands⟩) := by
  rw [getopt_word h hc, shortOption, hopt]
  rfl

/-- An option that is not known. -/
theorem getopt_unknown (h : a.optWord = some (c, next)) (hc : a ≠ CStr.dashes)
    (hopt : optLookup optstring c = none) :
    getopt permute optstring ⟨[], a :: args, operands⟩
      = (some (.bad c), ⟨next, args, operands⟩) := by
  rw [getopt_word h hc, shortOption, hopt]
  rfl

/-- An operand that is passed over. -/
theorem getopt_operand (h : a.optWord = none) :
    getopt true optstring ⟨[], a :: args, operands⟩
      = getopt true optstring ⟨[], args, operands ++ [a]⟩ := by
  have hne : a ≠ CStr.dashes := fun he => by rw [he, CStr.optWord_dashes] at h; cases h
  show getoptWord true optstring (a :: args) operands = _
  rw [getoptWord, if_neg hne, h]
  rfl

/-- An operand that ends the options. -/
theorem getopt_stop (h : a.optWord = none) :
    getopt false optstring ⟨[], a :: args, operands⟩ = (none, ⟨[], a :: args, operands⟩) := by
  have hne : a ≠ CStr.dashes := fun he => by rw [he, CStr.optWord_dashes] at h; cases h
  show getoptWord false optstring (a :: args) operands = _
  rw [getoptWord, if_neg hne, h]
  rfl

/-- The word that ends the options. -/
theorem getopt_dashes : getopt permute optstring ⟨[], CStr.dashes :: args, operands⟩
    = (none, ⟨[], args, operands⟩) := by
  show getoptWord permute optstring (CStr.dashes :: args) operands = _
  rw [getoptWord, if_pos rfl]

theorem getopt_nil : getopt permute optstring ⟨[], [], operands⟩ = (none, ⟨[], [], operands⟩) := rfl

/-! ### Progress -/

/-- The bytes of words, their terminators included. -/
def wordsSize : List CStr → ℕ
  | [] => 0
  | a :: args => a.bytes.length + 1 + wordsSize args

/-- How much is left to look at. -/
def GetoptState.size (s : GetoptState) : ℕ := s.next.length + wordsSize s.args

theorem shortOption_size_le (optstring : Bytes) (c : UInt8) (s : GetoptState) :
    (shortOption optstring c s).2.size ≤ s.size := by
  unfold shortOption
  cases optLookup optstring c with
  | none => exact le_rfl
  | some takes =>
    cases takes with
    | false => exact le_rfl
    | true =>
      by_cases hnext : s.next ≠ []
      · simp only [if_pos hnext, GetoptState.size, List.length_nil]
        omega
      · simp only [if_neg hnext]
        cases hargs : s.args with
        | nil => exact le_rfl
        | cons a args =>
          simp only [GetoptState.size, hargs, wordsSize]
          omega

theorem getoptWord_size_lt : ∀ {args operands : List CStr} {r : GetoptRet} {s' : GetoptState},
    getoptWord permute optstring args operands = (some r, s') →
      s'.size < wordsSize args := by
  intro args
  induction args with
  | nil => intro operands r s' h; cases h
  | cons a args ih =>
    intro operands r s' h
    rw [getoptWord] at h
    rw [wordsSize]
    by_cases hdashes : a = CStr.dashes
    · rw [if_pos hdashes] at h
      cases h
    rw [if_neg hdashes] at h
    cases hword : a.optWord with
    | none =>
      simp only [hword] at h
      cases permute with
      | false => cases h
      | true => exact Nat.lt_of_lt_of_le (ih h) (Nat.le_add_left ..)
    | some w =>
      obtain ⟨c, next⟩ := w
      simp only [hword] at h
      have hs' : (shortOption optstring c ⟨next, args, operands⟩).2 = s' := congrArg Prod.snd h
      have hle := shortOption_size_le optstring c ⟨next, args, operands⟩
      rw [hs'] at hle
      have hlen := congrArg List.length (CStr.optWord_eq_some_iff.mp hword)
      simp only [GetoptState.size, List.length_cons] at hle hlen
      exact Nat.lt_of_le_of_lt hle (by omega)

/-- **A call that finds something leaves less to look at.** -/
theorem getopt_size_lt {s s' : GetoptState} {r : GetoptRet}
    (h : getopt permute optstring s = (some r, s')) : s'.size < s.size := by
  unfold getopt at h
  cases hnext : s.next with
  | nil =>
    simp only [hnext] at h
    exact Nat.lt_of_lt_of_le (getoptWord_size_lt h) (Nat.le_add_left ..)
  | cons c next =>
    simp only [hnext] at h
    have hs' : (shortOption optstring c { s with next := next }).2 = s' := congrArg Prod.snd h
    have hle := shortOption_size_le optstring c { s with next := next }
    rw [hs'] at hle
    simp only [GetoptState.size, hnext, List.length_cons] at hle ⊢
    omega
