import Mathlib.Algebra.Ring.Parity
import Tsag.Lib.CString

/-!
# Search patterns

A search pattern is the source line with TABs, backslashes and slashes escaped,
and a dollar sign where it would end the pattern.  `escape_pattern` goes through
the line twice, first to count and then to write; every store is checked here.

## Main definitions

* `escapeWidth`, `escapeWrite`, `escapePattern` — the two loops and the function.
* `escapeBytes` — the bytes the second loop writes, one after the other.
* `unescapePattern` — what a reader of the pattern takes it for.
* `SlashesEscaped` — no slash ends the pattern for such a reader.

## Main results

* `length_escapeBytes` — the two loops agree.
* `escapePattern_eq` — the stores stay inside the buffer.
* `unescape_escapeBytes` — un-escaping gives back the line up to its end.
* `mem_escapeBytes` — which unprintable bytes a pattern holds: no TAB, no line end.
* `slashesEscaped_escapeBytes` — every slash of a pattern is escaped.
* `escapePattern_round_trip` — all of this of the buffer `escape_pattern` fills.
-/

namespace Tsag

/-- `escape_pattern` stops at this byte. -/
def endsLine (c : UInt8) : Bool := c == Byte.newline || c == Byte.cr

/-- The letter that stands for a TAB after a backslash. -/
def letterT : UInt8 := 116

/-- The first loop of `escape_pattern`: the bytes the pattern will take. -/
def escapeWidth : Bytes → ℕ
  | [] => 0
  | c :: rest =>
      if endsLine c then 0
      else if c = Byte.tab ∨ c = Byte.backslash ∨ c = Byte.slash ∨ (c = Byte.dollar ∧ rest = [])
      then 2 + escapeWidth rest
      else 1 + escapeWidth rest

/-- `dst[out++] = c`, `none` outside the buffer. -/
def store (c : UInt8) (st : Bytes × ℕ) : Option (Bytes × ℕ) :=
  if st.2 < st.1.length then some (st.1.set st.2 c, st.2 + 1) else none

/-- The second loop of `escape_pattern`; the state is `dst` and `out`. -/
def escapeWrite : Bytes → Bytes × ℕ → Option (Bytes × ℕ)
  | [], st => some st
  | c :: rest, st =>
      if endsLine c then some st
      else if c = Byte.tab then do
        let st ← store Byte.backslash st
        let st ← store letterT st
        escapeWrite rest st
      else if c = Byte.backslash ∨ c = Byte.slash then do
        let st ← store Byte.backslash st
        let st ← store c st
        escapeWrite rest st
      else if c = Byte.dollar ∧ rest = [] then do
        let st ← store Byte.backslash st
        let st ← store Byte.dollar st
        escapeWrite rest st
      else do
        let st ← store c st
        escapeWrite rest st

/-- `malloc`: memory of the size asked for, with whatever is in it, or `none`. -/
structure Malloc where
  alloc : ℕ → Option Bytes
  length_alloc : ∀ n dst, alloc n = some dst → dst.length = n

/-- A `malloc` that always succeeds. -/
def Malloc.zeros : Malloc where
  alloc n := some (List.replicate n 0)
  length_alloc n dst h := by
    obtain rfl := Option.some.inj h
    exact List.length_replicate

/-- `escape_pattern`, `some none` when it returns `NULL`. -/
def escapePattern (malloc : Malloc) (src : Bytes) : Option (Option CStr) :=
  match malloc.alloc (escapeWidth src + 1) with
  | none => some none
  | some dst => do
      let st ← escapeWrite src (dst, 0)
      let st ← store 0 (st.1, escapeWidth src)
      return some (CStr.ofBuffer st.1)

/-! ### What the second loop writes -/

/-- The bytes a byte of the line becomes, with `rest` after it. -/
def escapeByte (c : UInt8) (rest : Bytes) : Bytes :=
  if c = Byte.tab then [Byte.backslash, letterT]
  else if c = Byte.backslash ∨ c = Byte.slash then [Byte.backslash, c]
  else if c = Byte.dollar ∧ rest = [] then [Byte.backslash, c]
  else [c]

/-- The bytes the second loop of `escape_pattern` writes, in order. -/
def escapeBytes : Bytes → Bytes
  | [] => []
  | c :: rest => if endsLine c then [] else escapeByte c rest ++ escapeBytes rest

/-- What becomes of a byte: a backslash and a byte a reader takes for it, or the
byte as it is. -/
theorem escapeByte_cases (c : UInt8) (rest : Bytes) :
    (∃ d, escapeByte c rest = [Byte.backslash, d] ∧ (if d = letterT then Byte.tab else d) = c ∧
      isprint d ∧
      (c = Byte.tab ∨ c = Byte.backslash ∨ c = Byte.slash ∨ (c = Byte.dollar ∧ rest = []))) ∨
    (escapeByte c rest = [c] ∧ c ≠ Byte.tab ∧ c ≠ Byte.backslash ∧ c ≠ Byte.slash ∧
      ¬ (c = Byte.dollar ∧ rest = [])) := by
  unfold escapeByte
  by_cases htab : c = Byte.tab
  · rw [if_pos htab]
    exact Or.inl ⟨letterT, rfl, htab.symm, rfl, Or.inl htab⟩
  rw [if_neg htab]
  by_cases hesc : c = Byte.backslash ∨ c = Byte.slash
  · rw [if_pos hesc]
    refine Or.inl ⟨c, rfl, ?_, ?_, hesc.elim (fun h => by simp [h]) fun h => by simp [h]⟩
    · rcases hesc with rfl | rfl <;> decide
    · rcases hesc with rfl | rfl <;> rfl
  rw [if_neg hesc]
  rw [not_or] at hesc
  by_cases hdollar : c = Byte.dollar ∧ rest = []
  · rw [if_pos hdollar]
    refine Or.inl ⟨c, rfl, ?_, ?_, by simp [hdollar]⟩
    · rw [hdollar.1]
      decide
    · rw [hdollar.1]
      rfl
  · rw [if_neg hdollar]
    exact Or.inr ⟨rfl, htab, hesc.1, hesc.2, hdollar⟩

/-- The first loop counts what the second one writes. -/
theorem length_escapeBytes (src : Bytes) : (escapeBytes src).length = escapeWidth src := by
  induction src with
  | nil => rfl
  | cons c rest ih =>
    rw [escapeBytes, escapeWidth]
    by_cases hend : endsLine c
    · simp [hend]
    rw [if_neg hend, if_neg hend, List.length_append, ih]
    rcases escapeByte_cases c rest with ⟨d, hbyte, -, -, hspecial⟩ | ⟨hbyte, h⟩
    · rw [hbyte, if_pos hspecial]
      rfl
    · rw [hbyte, if_neg (by simpa using h)]
      rfl

/-- One turn of the second loop stores the bytes of one byte of the line. -/
theorem escapeWrite_cons {c : UInt8} (rest : Bytes) (st : Bytes × ℕ) (hend : ¬ endsLine c) :
    escapeWrite (c :: rest) st
      = ((escapeByte c rest).foldlM (fun st b => store b st) st).bind (escapeWrite rest) := by
  rw [escapeWrite, if_neg hend, escapeByte]
  by_cases htab : c = Byte.tab
  · simp [htab, Option.bind_assoc]
  rw [if_neg htab, if_neg htab]
  by_cases hesc : c = Byte.backslash ∨ c = Byte.slash
  · simp [hesc, Option.bind_assoc]
  rw [if_neg hesc, if_neg hesc]
  by_cases hdollar : c = Byte.dollar ∧ rest = []
  · rw [if_pos hdollar, if_pos hdollar, hdollar.1]
    simp [Option.bind_assoc]
  · rw [if_neg hdollar, if_neg hdollar]
    simp

theorem foldlM_store (bs : Bytes) : ∀ pre junk : Bytes, bs.length ≤ junk.length →
    bs.foldlM (fun st b => store b st) (pre ++ junk, pre.length)
      = some (pre ++ bs ++ junk.drop bs.length, (pre ++ bs).length) := by
  induction bs with
  | nil => simp
  | cons b bs ih =>
    intro pre junk hlen
    cases junk with
    | nil => simp at hlen
    | cons x junk =>
      have hstore : store b (pre ++ x :: junk, pre.length)
          = some ((pre ++ [b]) ++ junk, (pre ++ [b]).length) := by
        simp [store]
      rw [List.foldlM_cons, hstore]
      show bs.foldlM (fun st b => store b st) (pre ++ [b] ++ junk, (pre ++ [b]).length) = _
      rw [ih (pre ++ [b]) junk (by simpa using hlen)]
      simp

/-- The second loop stores `escapeBytes` where it starts, if there is room. -/
theorem escapeWrite_eq (src : Bytes) : ∀ pre junk : Bytes, (escapeBytes src).length ≤ junk.length →
    escapeWrite src (pre ++ junk, pre.length)
      = some (pre ++ escapeBytes src ++ junk.drop (escapeBytes src).length,
        (pre ++ escapeBytes src).length) := by
  induction src with
  | nil => simp [escapeWrite, escapeBytes]
  | cons c rest ih =>
    intro pre junk hlen
    by_cases hend : endsLine c
    · simp [escapeWrite, escapeBytes, hend]
    · rw [escapeBytes, if_neg hend] at hlen ⊢
      rw [List.length_append] at hlen
      rw [escapeWrite_cons rest _ hend, foldlM_store _ pre junk (by omega), Option.bind_some,
        ih _ _ (by rw [List.length_drop]; omega)]
      simp [List.drop_drop]

/-- **The stores stay inside the buffer**, and the pattern is the C string that
the bytes written read as. -/
theorem escapePattern_eq (malloc : Malloc) (src : Bytes) :
    escapePattern malloc src = some ((malloc.alloc (escapeWidth src + 1)).map
      fun _ => CStr.ofBuffer (escapeBytes src)) := by
  unfold escapePattern
  cases hdst : malloc.alloc (escapeWidth src + 1) with
  | none => rfl
  | some dst =>
    have hlen := malloc.length_alloc _ _ hdst
    have hwrite := escapeWrite_eq src [] dst (by rw [hlen, length_escapeBytes]; omega)
    simp only [List.nil_append, List.length_nil] at hwrite
    -- one byte of the buffer is left, for the terminator
    obtain ⟨x, hx⟩ : ∃ x, dst.drop (escapeBytes src).length = [x] :=
      List.length_eq_one_iff.mp (by rw [List.length_drop, hlen, length_escapeBytes]; omega)
    rw [hx] at hwrite
    simp [hwrite, store, ← length_escapeBytes, CStr.ofBuffer_append_nul]

/-! ### What a reader makes of a pattern -/

/-- A reader takes `\t` for a TAB and `\c` for `c`. -/
def unescapePattern : Bytes → Bytes
  | [] => []
  | [c] => [c]
  | c :: d :: rest =>
      if c = Byte.backslash then
        (if d = letterT then Byte.tab else d) :: unescapePattern rest
      else c :: unescapePattern (d :: rest)

theorem unescape_cons {c : UInt8} (hc : c ≠ Byte.backslash) (rest : Bytes) :
    unescapePattern (c :: rest) = c :: unescapePattern rest := by
  cases rest with
  | nil => rfl
  | cons d rest => rw [unescapePattern, if_neg hc]

/-- **Un-escaping a pattern gives back the line up to its end.** -/
theorem unescape_escapeBytes (src : Bytes) :
    unescapePattern (escapeBytes src) = src.takeWhile fun c => !endsLine c := by
  induction src with
  | nil => rfl
  | cons c rest ih =>
    by_cases hend : endsLine c
    · simp [escapeBytes, hend, unescapePattern]
    · rw [escapeBytes, if_neg hend, List.takeWhile_cons_of_pos (by simpa using hend)]
      rcases escapeByte_cases c rest with ⟨d, hbyte, hd, -, -⟩ | ⟨hbyte, -, hback, -, -⟩
      · rw [hbyte, List.cons_append, List.cons_append, List.nil_append, unescapePattern,
          if_pos rfl, hd, ih]
      · rw [hbyte, List.cons_append, List.nil_append, unescape_cons hback, ih]

/-- The unprintable bytes of a pattern are those of the line up to its end, but for
the TABs. -/
theorem mem_escapeBytes {d : UInt8} (hd : isprint d = false) (src : Bytes) :
    d ∈ escapeBytes src ↔ d ≠ Byte.tab ∧ d ∈ src.takeWhile fun c => !endsLine c := by
  induction src with
  | nil => simp [escapeBytes]
  | cons c rest ih =>
    by_cases hend : endsLine c
    · simp [escapeBytes, hend]
    rw [escapeBytes, if_neg hend, List.takeWhile_cons_of_pos (by simpa using hend),
      List.mem_append, List.mem_cons, ih]
    rcases escapeByte_cases c rest with ⟨e, hbyte, -, he, hspecial⟩ | ⟨hbyte, htab, -⟩
    · have hne : d ≠ Byte.backslash ∧ d ≠ e := by
        constructor <;> rintro rfl
        · cases hd
        · rw [he] at hd
          cases hd
      -- only a TAB is both special and unprintable
      have hdc : d = c → d = Byte.tab := by
        rintro rfl
        rcases hspecial with h | rfl | rfl | ⟨rfl, -⟩
        · exact h
        · cases hd
        · cases hd
        · cases hd
      -- the two bytes of the escape are both printable
      rw [hbyte, List.mem_pair]
      constructor
      · rintro (hmem | ⟨hdt, hmem⟩)
        · exact (hmem.elim hne.1 hne.2).elim
        · exact ⟨hdt, Or.inr hmem⟩
      · rintro ⟨hdt, heq | hmem⟩
        · exact absurd (hdc heq) hdt
        · exact Or.inr ⟨hdt, hmem⟩
    · -- a byte copied is no TAB
      rw [hbyte, List.mem_singleton]
      constructor
      · rintro (rfl | ⟨hdt, hmem⟩)
        · exact ⟨htab, Or.inl rfl⟩
        · exact ⟨hdt, Or.inr hmem⟩
      · rintro ⟨hdt, heq | hmem⟩
        · exact Or.inl heq
        · exact Or.inr ⟨hdt, hmem⟩

/-- **A pattern holds no TAB.** -/
theorem tab_not_mem_escapeBytes (src : Bytes) : Byte.tab ∉ escapeBytes src :=
  fun h => ((mem_escapeBytes rfl src).mp h).1 rfl

/-- **A pattern holds no line feed and no carriage return.** -/
theorem endsLine_not_mem_escapeBytes {d : UInt8} (hd : endsLine d) (src : Bytes) :
    d ∉ escapeBytes src := by
  have hprint : isprint d = false := by
    rw [endsLine, Bool.or_eq_true, beq_iff_eq, beq_iff_eq] at hd
    rcases hd with rfl | rfl <;> rfl
  intro h
  have hmem := List.mem_takeWhile_imp ((mem_escapeBytes hprint src).mp h).2
  simp [hd] at hmem

/-! ### Which slashes are escaped -/

/-- The length of the run of backslashes at the end of a buffer. -/
def trailingBackslashes (l : Bytes) : ℕ := (l.reverse.takeWhile (· = Byte.backslash)).length

/-- Every slash comes after an odd run of backslashes: the last of them escapes it. -/
def SlashesEscaped (l : Bytes) : Prop :=
  ∀ pre post, l = pre ++ Byte.slash :: post → Odd (trailingBackslashes pre)

theorem trailingBackslashes_backslash (l : Bytes) :
    trailingBackslashes (l ++ [Byte.backslash]) = trailingBackslashes l + 1 := by
  simp [trailingBackslashes]

theorem trailingBackslashes_of_ne {c : UInt8} (hc : c ≠ Byte.backslash) (l : Bytes) :
    trailingBackslashes (l ++ [c]) = 0 := by
  simp [trailingBackslashes, hc]

theorem slashesEscaped_nil : SlashesEscaped [] := by
  intro pre post h
  simp at h

theorem slashesEscaped_snoc {l : Bytes} {c : UInt8} (hl : SlashesEscaped l)
    (hc : c = Byte.slash → Odd (trailingBackslashes l)) : SlashesEscaped (l ++ [c]) := by
  intro pre post h
  -- the slash is the byte added, or one that was there
  rcases List.eq_nil_or_concat post with rfl | ⟨post, b, rfl⟩
  · obtain ⟨rfl, hslash⟩ := List.append_inj' h rfl
    exact hc (List.singleton_inj.mp hslash)
  · rw [List.concat_eq_append, ← List.cons_append, ← List.append_assoc] at h
    exact hl pre post (List.append_inj' h rfl).1

/-- One turn of the second loop keeps the slashes escaped, and the run of
backslashes it leaves at the end even. -/
theorem slashesEscaped_append_escapeByte {pre : Bytes} (hpre : SlashesEscaped pre)
    (heven : Even (trailingBackslashes pre)) (c : UInt8) (rest : Bytes) :
    SlashesEscaped (pre ++ escapeByte c rest) ∧
      Even (trailingBackslashes (pre ++ escapeByte c rest)) := by
  rcases escapeByte_cases c rest with ⟨d, hbyte, -, -, -⟩ | ⟨hbyte, -, hback, hslash, -⟩
  · have hsplit : pre ++ [Byte.backslash, d] = pre ++ [Byte.backslash] ++ [d] := by simp
    have hodd : Odd (trailingBackslashes (pre ++ [Byte.backslash])) := by
      rw [trailingBackslashes_backslash]
      exact heven.add_one
    rw [hbyte, hsplit]
    constructor
    · exact slashesEscaped_snoc (slashesEscaped_snoc hpre fun h => absurd h (by decide))
        fun _ => hodd
    · by_cases hd : d = Byte.backslash
      · rw [hd, trailingBackslashes_backslash]
        exact hodd.add_one
      · rw [trailingBackslashes_of_ne hd]
        exact Even.zero
  · rw [hbyte, trailingBackslashes_of_ne hback]
    exact ⟨slashesEscaped_snoc hpre fun h => absurd h hslash, Even.zero⟩

theorem slashesEscaped_append_escapeBytes (src : Bytes) : ∀ {pre : Bytes}, SlashesEscaped pre →
    Even (trailingBackslashes pre) → SlashesEscaped (pre ++ escapeBytes src) := by
  induction src with
  | nil =>
    intro pre hpre _
    rwa [escapeBytes, List.append_nil]
  | cons c rest ih =>
    intro pre hpre heven
    rw [escapeBytes]
    split
    · rwa [List.append_nil]
    · obtain ⟨hstep, hstepEven⟩ := slashesEscaped_append_escapeByte hpre heven c rest
      rw [← List.append_assoc]
      exact ih hstep hstepEven

/-- **Every slash of a pattern is escaped.** -/
theorem slashesEscaped_escapeBytes (src : Bytes) : SlashesEscaped (escapeBytes src) :=
  slashesEscaped_append_escapeBytes src slashesEscaped_nil Even.zero

/-- **Escaping is injective** on what comes before the end of the line. -/
theorem takeWhile_eq_of_escapeBytes_eq {src src' : Bytes} (h : escapeBytes src = escapeBytes src') :
    (src.takeWhile fun c => !endsLine c) = src'.takeWhile fun c => !endsLine c := by
  rw [← unescape_escapeBytes, h, unescape_escapeBytes]

/-! ### What `escape_pattern` leaves in its buffer -/

/-- The second loop fills the buffer but for its last byte. -/
theorem escapeWrite_alloc {malloc : Malloc} {src dst : Bytes}
    (hdst : malloc.alloc (escapeWidth src + 1) = some dst) :
    escapeWrite src (dst, 0)
      = some (escapeBytes src ++ dst.drop (escapeWidth src), escapeWidth src) := by
  have hlen := malloc.length_alloc _ _ hdst
  have hwrite := escapeWrite_eq src [] dst (by rw [hlen, length_escapeBytes]; omega)
  simpa [length_escapeBytes] using hwrite

/-- **`escape_pattern` round-trips, and its two loops agree.**  The second loop
stores as many bytes as the first one counted and leaves the last byte of the
buffer alone; these bytes un-escape to the line up to its end, hold no TAB and no
line end, every slash of them is escaped, and a line that gives the same bytes is
the same up to its end. -/
theorem escapePattern_round_trip (malloc : Malloc) (src : Bytes) {dst : Bytes}
    (hdst : malloc.alloc (escapeWidth src + 1) = some dst) :
    ∃ pattern : Bytes, pattern.length = escapeWidth src ∧
      escapeWrite src (dst, 0)
        = some (pattern ++ dst.drop (escapeWidth src), escapeWidth src) ∧
      escapePattern malloc src = some (some (CStr.ofBuffer pattern)) ∧
      unescapePattern pattern = (src.takeWhile fun c => !endsLine c) ∧
      Byte.tab ∉ pattern ∧ Byte.newline ∉ pattern ∧ Byte.cr ∉ pattern ∧
      SlashesEscaped pattern ∧
      ∀ src' dst' rest', malloc.alloc (escapeWidth src' + 1) = some dst' →
        escapeWrite src' (dst', 0) = some (pattern ++ rest', pattern.length) →
        (src'.takeWhile fun c => !endsLine c) = src.takeWhile fun c => !endsLine c := by
  refine ⟨escapeBytes src, length_escapeBytes src, escapeWrite_alloc hdst, ?_,
    unescape_escapeBytes src, tab_not_mem_escapeBytes src, endsLine_not_mem_escapeBytes rfl src,
    endsLine_not_mem_escapeBytes rfl src, slashesEscaped_escapeBytes src, ?_⟩
  · rw [escapePattern_eq, hdst, Option.map_some]
  · intro src' dst' rest' hdst' hwrite
    rw [escapeWrite_alloc hdst', Option.some.injEq, Prod.mk.injEq] at hwrite
    obtain ⟨hbuf, hout⟩ := hwrite
    rw [← length_escapeBytes] at hout
    exact takeWhile_eq_of_escapeBytes_eq (List.append_inj hbuf hout).1

/-- A line with a slash, a backslash before a `t`, a TAB and a final dollar sign. -/
theorem escapePattern_round_trip_dollar : ∃ pattern : Bytes, pattern.length = 9 ∧
    escapeWrite (ascii "/\\t\t$") (List.replicate 10 0, 0) = some (pattern ++ [0], 9) ∧
    unescapePattern pattern = ascii "/\\t\t$" ∧ SlashesEscaped pattern := by
  obtain ⟨pattern, hlen, hwrite, -, hunescape, -, -, -, hslash, -⟩ :=
    escapePattern_round_trip Malloc.zeros (ascii "/\\t\t$") rfl
  exact ⟨pattern, hlen, hwrite, hunescape, hslash⟩

end Tsag
