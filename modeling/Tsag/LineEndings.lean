import Mathlib.Data.List.Induction
import Tsag.Escape
import Tsag.LineRange

/-!
# Line endings

A file saved with CR LF line endings has a carriage return before every line
feed.  `line_range` splits at the line feed alone, so the slice of a line may end
in the carriage return, where `escape_pattern` stops.

## Main definitions

* `crlf`, `crlfPosition` — a source saved with CR LF line endings, and a place in it.

## Main results

* `escapeBytes_append_cr_iff` — the carriage return changes the pattern of the
  lines that end in a dollar sign.
* `lineSlice_crlf` — the slice of a line of the file saved with CR LF.
* `crlf_keeps_pattern_iff` — which lines keep their pattern.
-/

namespace Tsag

/-! ### A carriage return after the line -/

/-- Only the last byte of a line is escaped for being the last. -/
theorem escapeByte_of_ne_nil (c : UInt8) {rest rest' : Bytes} (hrest : rest ≠ [])
    (hrest' : rest' ≠ []) : escapeByte c rest = escapeByte c rest' := by
  simp [escapeByte, hrest, hrest']

/-- The bytes before some others are escaped apart from them. -/
theorem escapeBytes_append {l rest : Bytes} (hl : ∀ c ∈ l, ¬ endsLine c) (hrest : rest ≠ []) :
    escapeBytes (l ++ rest)
      = (l.flatMap fun c => escapeByte c [Byte.cr]) ++ escapeBytes rest := by
  induction l with
  | nil => rfl
  | cons c l ih =>
    rw [List.cons_append, escapeBytes, if_neg (hl c (List.mem_cons_self ..)),
      ih fun d hd => hl d (List.mem_cons_of_mem _ hd), List.flatMap_cons, List.append_assoc,
      escapeByte_of_ne_nil c (by simp [hrest]) (List.cons_ne_nil Byte.cr [])]

theorem escapeBytes_singleton {c : UInt8} (hc : ¬ endsLine c) :
    escapeBytes [c] = escapeByte c [] := by
  rw [escapeBytes, if_neg hc, escapeBytes, List.append_nil]

theorem escapeBytes_pair_cr {c : UInt8} (hc : ¬ endsLine c) :
    escapeBytes [c, Byte.cr] = escapeByte c [Byte.cr] := by
  rw [escapeBytes, if_neg hc, escapeBytes, if_pos (by rfl), List.append_nil]

/-- **A carriage return changes what is written for the lines that end in a dollar
sign**, and for no others. -/
theorem escapeBytes_append_cr_iff {l : Bytes} (hl : ∀ c ∈ l, ¬ endsLine c) :
    escapeBytes (l ++ [Byte.cr]) = escapeBytes l ↔ l.getLast? ≠ some Byte.dollar := by
  rcases List.eq_nil_or_concat l with rfl | ⟨init, c, rfl⟩
  · simp [escapeBytes, endsLine]
  rw [List.concat_eq_append] at hl ⊢
  have hinit : ∀ d ∈ init, ¬ endsLine d := fun d hd => hl d (List.mem_append_left _ hd)
  have hc : ¬ endsLine c := hl c (by simp)
  rw [List.append_assoc, List.singleton_append, escapeBytes_append hinit (by simp),
    escapeBytes_append hinit (by simp), List.append_cancel_left_eq, escapeBytes_pair_cr hc,
    escapeBytes_singleton hc, List.getLast?_concat, ne_eq, Option.some.injEq]
  by_cases hdollar : c = Byte.dollar
  · simp [hdollar, escapeByte, Byte.dollar, Byte.tab, Byte.backslash, Byte.slash]
  · simp [hdollar, escapeByte]

theorem nul_not_mem_escapeBytes {src : Bytes} (h : (0 : UInt8) ∉ src) :
    (0 : UInt8) ∉ escapeBytes src := fun hmem =>
  h ((List.takeWhile_prefix _).subset ((mem_escapeBytes rfl src).mp hmem).2)

/-- Two lines without a NUL have the same pattern, whatever `malloc` does, if and
only if the same bytes are written for them. -/
theorem escapePattern_eq_iff {l l' : Bytes} (h : (0 : UInt8) ∉ l) (h' : (0 : UInt8) ∉ l') :
    (∀ malloc, escapePattern malloc l = escapePattern malloc l') ↔
      escapeBytes l = escapeBytes l' := by
  constructor
  · intro heq
    have hzeros := heq Malloc.zeros
    rw [escapePattern_eq, escapePattern_eq] at hzeros
    have hstr := congrArg CStr.bytes (Option.some.inj (Option.some.inj hzeros))
    rwa [CStr.bytes_ofBuffer_of_notMem (nul_not_mem_escapeBytes h),
      CStr.bytes_ofBuffer_of_notMem (nul_not_mem_escapeBytes h')] at hstr
  · intro heq malloc
    rw [escapePattern_eq, escapePattern_eq, ← length_escapeBytes, ← length_escapeBytes, heq]

/-! ### A file saved with CR LF -/

/-- The source with a carriage return before every line feed. -/
def crlf (source : Bytes) : Bytes :=
  source.flatMap fun c => if c = Byte.newline then [Byte.cr, Byte.newline] else [c]

theorem crlf_append (a b : Bytes) : crlf (a ++ b) = crlf a ++ crlf b := List.flatMap_append

/-- A run without a line feed is saved as it is. -/
theorem crlf_of_notMem {l : Bytes} (h : Byte.newline ∉ l) : crlf l = l := by
  induction l with
  | nil => rfl
  | cons c l ih =>
    rw [List.mem_cons, not_or] at h
    rw [crlf, List.flatMap_cons, if_neg (Ne.symm h.1), ← crlf, ih h.2, List.singleton_append]

theorem crlf_cons (c : UInt8) (l : Bytes) :
    crlf (c :: l) = (if c = Byte.newline then [Byte.cr, Byte.newline] else [c]) ++ crlf l :=
  List.flatMap_cons

/-- The part before the position starts after the same line feed. -/
theorem rtakeWhile_crlf (l : Bytes) :
    (crlf l).reverse.takeWhile (· ≠ Byte.newline) = l.reverse.takeWhile (· ≠ Byte.newline) := by
  induction l using List.reverseRecOn with
  | nil => rfl
  | append_singleton l c ih =>
    rw [crlf_append, List.reverse_append, List.reverse_append]
    by_cases hc : c = Byte.newline
    · simp [crlf, hc]
    · rw [crlf_of_notMem (by simpa using Ne.symm hc), List.reverse_singleton,
        List.singleton_append, List.singleton_append, List.takeWhile_cons, List.takeWhile_cons, ih]

/-- The part from the position on ends before the carriage return's line feed. -/
theorem takeWhile_crlf (l : Bytes) : (crlf l).takeWhile (· ≠ Byte.newline)
    = l.takeWhile (· ≠ Byte.newline) ++ if Byte.newline ∈ l then [Byte.cr] else [] := by
  induction l with
  | nil => rfl
  | cons c l ih =>
    rw [crlf_cons]
    by_cases hc : c = Byte.newline
    · simp [hc, Byte.cr, Byte.newline]
    · rw [if_neg hc, List.singleton_append, List.takeWhile_cons_of_pos (by simpa using hc), ih,
        List.takeWhile_cons_of_pos (by simpa using hc)]
      simp [Ne.symm hc]

/-- Where a position of the source is in the file saved with CR LF. -/
def crlfPosition (source : Bytes) (start : ℕ) : ℕ := (crlf (source.take start)).length

theorem crlf_eq_append (source : Bytes) (start : ℕ) :
    crlf source = crlf (source.take start) ++ crlf (source.drop start) := by
  rw [← crlf_append, List.take_append_drop]

theorem crlfPosition_le (source : Bytes) (start : ℕ) :
    crlfPosition source start ≤ (crlf source).length := by
  rw [crlf_eq_append source start, List.length_append, crlfPosition]
  exact Nat.le_add_right _ _

theorem lineBefore_crlf (source : Bytes) (start : ℕ) :
    lineBefore (crlf source) (crlfPosition source start) = lineBefore source start := by
  rw [lineBefore, lineBefore, crlf_eq_append source start, crlfPosition, List.take_left,
    rtakeWhile_crlf]

theorem lineAfter_crlf (source : Bytes) (start : ℕ) :
    lineAfter (crlf source) (crlfPosition source start)
      = lineAfter source start ++ if Byte.newline ∈ source.drop start then [Byte.cr] else [] := by
  rw [lineAfter, lineAfter, crlf_eq_append source start, crlfPosition, List.drop_left,
    takeWhile_crlf]

theorem length_le_length_crlf (source : Bytes) : source.length ≤ (crlf source).length := by
  induction source with
  | nil => exact le_rfl
  | cons c source ih =>
    rw [crlf_cons, List.length_append, List.length_cons]
    split <;> simp <;> omega

/-- **The slice of the file saved with CR LF** is the line, with the carriage return
if there is one and the window reaches it. -/
theorem lineWindow_crlf {source : Bytes} {start : ℕ}
    (hbefore : (lineBefore source start).length ≤ maxLineLen)
    (hafter : (lineAfter source start).length ≤ maxLineLen) :
    lineWindow (crlf source) (crlfPosition source start) = sourceLine source start ++
      if Byte.newline ∈ source.drop start ∧ (lineAfter source start).length < maxLineLen
      then [Byte.cr] else [] := by
  rw [lineWindow, lineBefore_crlf, lineAfter_crlf, Nat.sub_eq_zero_of_le hbefore, List.drop_zero,
    sourceLine, List.append_assoc, List.append_cancel_left_eq, List.take_append,
    List.take_of_length_le hafter, List.append_cancel_left_eq]
  by_cases hterm : Byte.newline ∈ source.drop start
  · rw [if_pos hterm]
    rcases hafter.lt_or_eq with hlt | heq
    · rw [if_pos ⟨hterm, hlt⟩, List.take_of_length_le (by simp; omega)]
    · rw [heq, Nat.sub_self, List.take_zero, if_neg (by omega)]
  · rw [if_neg hterm, if_neg (fun h => hterm h.1), List.take_nil]

/-! ### Which lines keep their pattern -/

/-- **A line keeps its pattern when its file is saved with CR LF, unless it ends in
a dollar sign**: that one is escaped for being the last byte of the slice, which
the carriage return then is.  In a file the line also has to be ended by a line
feed, with the carriage return in the window. -/
theorem crlf_keeps_pattern_iff {l : Bytes} (hcr : Byte.cr ∉ l) (hnewline : Byte.newline ∉ l)
    (hnul : (0 : UInt8) ∉ l) :
    ((∀ malloc, escapePattern malloc (l ++ [Byte.cr]) = escapePattern malloc l) ↔
      l.getLast? ≠ some Byte.dollar) ∧
    ∀ source start, start ≤ source.length → (crlf source).length ≤ maxFileSize →
      sourceLine source start = l → (lineBefore source start).length ≤ maxLineLen →
      (lineAfter source start).length ≤ maxLineLen →
      ∃ slice slice', lineSlice source start = some slice ∧
        lineSlice (crlf source) (crlfPosition source start) = some slice' ∧
        ((∀ malloc, escapePattern malloc slice' = escapePattern malloc slice) ↔
          ¬ (l.getLast? = some Byte.dollar ∧ Byte.newline ∈ source.drop start ∧
            (lineAfter source start).length < maxLineLen)) := by
  have hends : ∀ c ∈ l, ¬ endsLine c := by
    intro c hc hend
    rw [endsLine, Bool.or_eq_true, beq_iff_eq, beq_iff_eq] at hend
    rcases hend with rfl | rfl
    · exact hnewline hc
    · exact hcr hc
  have hnul' : (0 : UInt8) ∉ l ++ [Byte.cr] := by
    rw [List.mem_append, not_or]
    exact ⟨hnul, by decide⟩
  have hpattern : (∀ malloc, escapePattern malloc (l ++ [Byte.cr]) = escapePattern malloc l) ↔
      l.getLast? ≠ some Byte.dollar := by
    rw [escapePattern_eq_iff hnul' hnul, escapeBytes_append_cr_iff hends]
  refine ⟨hpattern, ?_⟩
  intro source start hstart hsize hline hbefore hafter
  have hsize' := hsize.trans maxFileSize_le
  -- the window holds the line as a whole
  have hslice : lineSlice source start = some l := by
    rw [lineSlice_eq hstart ((length_le_length_crlf source).trans hsize'),
      (lineWindow_eq_sourceLine_iff source start).mpr ⟨hbefore, hafter⟩, hline]
  refine ⟨l, _, hslice, lineSlice_eq (crlfPosition_le source start) hsize', ?_⟩
  rw [lineWindow_crlf hbefore hafter, hline]
  -- the carriage return is in the slice only if the line is ended and the window reaches it
  by_cases hreach : Byte.newline ∈ source.drop start ∧ (lineAfter source start).length < maxLineLen
  · rw [if_pos hreach, hpattern]
    simp [hreach]
  · rw [if_neg hreach, List.append_nil]
    exact iff_of_true (fun _ => rfl) fun h => hreach h.2

/-- The line of `int x;`, in a file of that line. -/
theorem crlf_keeps_pattern_iff_int_x :
    (∀ malloc, escapePattern malloc (ascii "int x;" ++ [Byte.cr])
      = escapePattern malloc (ascii "int x;")) ∧
    ∃ slice slice', lineSlice (ascii "int x;\n") 4 = some slice ∧
      lineSlice (ascii "int x;\r\n") 4 = some slice' ∧
      ∀ malloc, escapePattern malloc slice' = escapePattern malloc slice := by
  obtain ⟨hpattern, hfile⟩ := crlf_keeps_pattern_iff (l := ascii "int x;") (by decide) (by decide)
    (by decide)
  obtain ⟨slice, slice', hslice, hslice', hkeeps⟩ := hfile (ascii "int x;\n") 4 (by decide)
    (by decide) (by decide) (by decide) (by decide)
  exact ⟨hpattern.mpr (by decide), slice, slice', hslice, hslice', hkeeps.mpr (by decide)⟩

/-- A line that ends in a dollar sign: `$` is the pattern with the carriage return,
`\$` the pattern without. -/
theorem crlf_changes_pattern_of_dollar :
    ∃ l : Bytes, (Byte.cr ∉ l ∧ Byte.newline ∉ l ∧ (0 : UInt8) ∉ l) ∧
      escapePattern Malloc.zeros (l ++ [Byte.cr]) = some (some (CStr.lit "var $")) ∧
      escapePattern Malloc.zeros l = some (some (CStr.lit "var \\$")) ∧
      escapePattern Malloc.zeros (l ++ [Byte.cr]) ≠ escapePattern Malloc.zeros l := by
  refine ⟨ascii "var $", ⟨by decide, by decide, by decide⟩, by decide, by decide, by decide⟩

end Tsag
