import Mathlib.Order.Interval.Set.Basic
import Tsag.Lib.CInt
import Tsag.Lib.CString

/-!
# The line of a name

The pattern of a tag is made from the line its name starts on, or from as much of
the line as lies within 512 bytes of the start of the name.  Every read of the
source is checked here.

## Main definitions

* `hasLongLine` — the test that skips generated files.
* `lineStart`, `lineEnd`, `lineRange` — the two loops and the function.
* `lineBefore`, `lineAfter`, `sourceLine` — the whole line around a position.
* `lineWindow` — the part of it that `lineRange` finds.
* `IsSourceLine` — the line as the longest stretch without a line feed.

## Main results

* `lineRange_eq`, `lineSlice_eq` — the reads stay inside the source, and find the window.
* `lineWindow_eq_sourceLine_iff` — when the window is the whole line.
* `lineRange_clipped_line` — the slice is the line, clipped.
-/

namespace Tsag

/-- `MAX_LINE_LEN`. -/
def maxLineLen : ℕ := 512

/-- `MAX_FILE_SIZE`, above which `read_file` reads nothing. -/
def maxFileSize : ℕ := 2 * 1024 * 1024

theorem maxFileSize_le : maxFileSize ≤ 2 ^ 32 := by decide

/-- `MAX_SRC_LINE_LEN`. -/
def maxSrcLineLen : ℕ := 4096

/-- The loop of `has_long_line`, `run` bytes into a line. -/
def hasLongLineFrom (run : ℕ) : Bytes → Bool
  | [] => false
  | c :: rest =>
      if c = Byte.newline then hasLongLineFrom 0 rest
      else if run + 1 > maxSrcLineLen then true
      else hasLongLineFrom (run + 1) rest

/-- `has_long_line`. -/
def hasLongLine (src : Bytes) : Bool := hasLongLineFrom 0 src

/-! ### The loops -/

/-- The loop of `line_range` that goes back to the start of the line. -/
def lineStart (src : Bytes) (backLimit : ℕ) : ℕ → Option ℕ
  | 0 => some 0
  | s + 1 =>
      if s + 1 > backLimit then do
        let c ← src[s]?
        if c ≠ Byte.newline then lineStart src backLimit s else return s + 1
      else some (s + 1)

/-- The loop of `line_range` that goes on to the end of the line. -/
def lineEnd (src : Bytes) (fwdLimit e : ℕ) : Option ℕ :=
  if e < fwdLimit then do
    let c ← src[e]?
    if c ≠ Byte.newline then lineEnd src fwdLimit (e + 1) else return e
  else some e
termination_by fwdLimit - e

/-- `line_range`: the offset and the length of the slice it finds. -/
def lineRange (src : Bytes) (start : ℕ) : Option (ℕ × ℕ) := do
  let backLimit := if start > maxLineLen then start - maxLineLen else 0
  let s ← lineStart src backLimit start
  let fwdLimit :=
    if sizeSub src.length start > maxLineLen then uint32Add start maxLineLen else src.length
  let e ← lineEnd src fwdLimit start
  return (s, sizeSub e s)

/-- The slice of the source that `line_range` finds. -/
def lineSlice (src : Bytes) (start : ℕ) : Option Bytes := do
  let (s, len) ← lineRange src start
  return (src.drop s).take len

/-! ### The line around a position -/

/-- The bytes of the line before the position. -/
def lineBefore (src : Bytes) (start : ℕ) : Bytes :=
  ((src.take start).reverse.takeWhile (· ≠ Byte.newline)).reverse

/-- The bytes of the line from the position on. -/
def lineAfter (src : Bytes) (start : ℕ) : Bytes :=
  (src.drop start).takeWhile (· ≠ Byte.newline)

/-- The line around the position, without its line feed. -/
def sourceLine (src : Bytes) (start : ℕ) : Bytes := lineBefore src start ++ lineAfter src start

/-- The part of the line within `maxLineLen` bytes of the position. -/
def lineWindow (src : Bytes) (start : ℕ) : Bytes :=
  (lineBefore src start).drop ((lineBefore src start).length - maxLineLen)
    ++ (lineAfter src start).take maxLineLen

theorem lineBefore_succ {src : Bytes} {s : ℕ} (hs : s < src.length) :
    lineBefore src (s + 1)
      = if src[s] = Byte.newline then [] else lineBefore src s ++ [src[s]] := by
  unfold lineBefore
  rw [List.take_succ_eq_append_getElem hs, List.reverse_append, List.reverse_singleton,
    List.singleton_append, List.takeWhile_cons]
  by_cases hnl : src[s] = Byte.newline
  · simp [hnl]
  · simp [hnl]

theorem lineAfter_eq {src : Bytes} {e : ℕ} (he : e < src.length) :
    lineAfter src e = if src[e] = Byte.newline then [] else src[e] :: lineAfter src (e + 1) := by
  unfold lineAfter
  rw [List.drop_eq_getElem_cons he, List.takeWhile_cons]
  by_cases hnl : src[e] = Byte.newline
  · simp [hnl]
  · simp [hnl]

theorem length_lineBefore_le (src : Bytes) (start : ℕ) : (lineBefore src start).length ≤ start := by
  unfold lineBefore
  rw [List.length_reverse]
  apply (List.takeWhile_prefix _).length_le.trans
  rw [List.length_reverse]
  exact List.length_take_le _ _

theorem length_lineAfter_le (src : Bytes) (start : ℕ) :
    (lineAfter src start).length ≤ src.length - start := by
  have hle := (List.takeWhile_prefix (· ≠ Byte.newline) (l := src.drop start)).length_le
  rwa [List.length_drop] at hle

theorem lineStart_eq {src : Bytes} (backLimit : ℕ) {s : ℕ} (hs : s ≤ src.length) :
    lineStart src backLimit s
      = some (s - min (lineBefore src s).length (s - backLimit)) := by
  induction s with
  | zero => simp [lineStart]
  | succ s ih =>
    have hlt : s < src.length := hs
    rw [lineStart]
    by_cases hlimit : s + 1 > backLimit
    · rw [if_pos hlimit, lineBefore_succ hlt]
      by_cases hnl : src[s] = Byte.newline
      · simp [hlt, hnl]
      · have hle := length_lineBefore_le src s
        simp only [List.getElem?_eq_getElem hlt, Option.bind_eq_bind, Option.bind_some, Ne, hnl,
          not_false_eq_true, if_true, if_false, ih hlt.le, List.length_append,
          List.length_singleton]
        congr 1
        omega
    · rw [if_neg hlimit]
      congr 1
      omega

theorem lineEnd_eq {src : Bytes} {fwdLimit e : ℕ} (hlimit : fwdLimit ≤ src.length) :
    lineEnd src fwdLimit e = some (e + min (lineAfter src e).length (fwdLimit - e)) := by
  induction hd : fwdLimit - e using Nat.strong_induction_on generalizing e with
  | _ d ih =>
    rw [lineEnd]
    by_cases he : e < fwdLimit
    · have hlt : e < src.length := he.trans_le hlimit
      rw [if_pos he, lineAfter_eq hlt]
      by_cases hnl : src[e] = Byte.newline
      · simp [hlt, hnl]
      · simp only [List.getElem?_eq_getElem hlt, Option.bind_eq_bind, Option.bind_some, Ne, hnl,
          not_false_eq_true, if_true, if_false, ih (fwdLimit - (e + 1)) (by omega) rfl,
          List.length_cons]
        congr 1
        omega
    · rw [if_neg he]
      congr 1
      omega

/-- **`line_range` reads inside the source**, and finds `lineWindow`'s place in it. -/
theorem lineRange_eq {src : Bytes} {start : ℕ} (hstart : start ≤ src.length)
    (hsize : src.length ≤ 2 ^ 32) :
    lineRange src start = some (start - min (lineBefore src start).length maxLineLen,
      min (lineBefore src start).length maxLineLen
        + min (lineAfter src start).length maxLineLen) := by
  have hbefore := length_lineBefore_le src start
  have hafter := length_lineAfter_le src start
  have hfwd : (if sizeSub src.length start > maxLineLen then uint32Add start maxLineLen
      else src.length) = min (start + maxLineLen) src.length := by
    rw [sizeSub_eq hstart (by omega)]
    split
    · next hfar => rw [uint32Add_eq (by omega), min_eq_left (by omega)]
    · omega
  have hback : (if start > maxLineLen then start - maxLineLen else 0) = start - maxLineLen := by
    split <;> omega
  unfold lineRange
  simp only [hback, hfwd, lineStart_eq _ hstart, lineEnd_eq (Nat.min_le_right _ _),
    Option.bind_eq_bind, Option.bind_some]
  have hs : min (lineBefore src start).length (start - (start - maxLineLen))
      = min (lineBefore src start).length maxLineLen := by omega
  have he : min (lineAfter src start).length (min (start + maxLineLen) src.length - start)
      = min (lineAfter src start).length maxLineLen := by omega
  have hlen : start + min (lineAfter src start).length maxLineLen
      - (start - min (lineBefore src start).length maxLineLen)
      = min (lineBefore src start).length maxLineLen
        + min (lineAfter src start).length maxLineLen := by omega
  rw [hs, he, sizeSub_eq (by omega) (by omega), hlen]
  rfl

/-- The line lies around the position. -/
theorem exists_eq_append {src : Bytes} {start : ℕ} (hstart : start ≤ src.length) :
    ∃ pre post, src = pre ++ (lineBefore src start ++ (lineAfter src start ++ post)) ∧
      start = pre.length + (lineBefore src start).length := by
  obtain ⟨pre, hpre⟩ : ∃ pre, src.take start = pre ++ lineBefore src start := by
    obtain ⟨rest, hrest⟩ := List.takeWhile_prefix (· ≠ Byte.newline) (l := (src.take start).reverse)
    refine ⟨rest.reverse, ?_⟩
    rw [lineBefore, ← List.reverse_append, hrest, List.reverse_reverse]
  obtain ⟨post, hpost⟩ : ∃ post, lineAfter src start ++ post = src.drop start :=
    List.takeWhile_prefix _
  have hlen := congrArg List.length hpre
  rw [List.length_take, min_eq_left hstart, List.length_append] at hlen
  refine ⟨pre, post, ?_, hlen⟩
  rw [hpost, ← List.append_assoc, ← hpre, List.take_append_drop]

/-- **The slice found is the window.** -/
theorem lineSlice_eq {src : Bytes} {start : ℕ} (hstart : start ≤ src.length)
    (hsize : src.length ≤ 2 ^ 32) : lineSlice src start = some (lineWindow src start) := by
  obtain ⟨pre, post, hsrc, hlen⟩ := exists_eq_append hstart
  simp only [lineSlice, lineRange_eq hstart hsize, Option.bind_eq_bind, Option.bind_some]
  unfold lineWindow
  generalize lineBefore src start = before at *
  generalize lineAfter src start = after at *
  have hdrop : src.drop (start - min before.length maxLineLen)
      = before.drop (before.length - maxLineLen) ++ (after ++ post) := by
    have hskip : start - min before.length maxLineLen - pre.length
        = before.length - maxLineLen := by omega
    have hnone : before.length - maxLineLen - before.length = 0 := by omega
    rw [hsrc, List.drop_append, List.drop_append, List.drop_eq_nil_of_le (by omega),
      List.nil_append, hskip, hnone, List.drop_zero]
  have htake : (after ++ post).take (min after.length maxLineLen) = after.take maxLineLen := by
    rw [List.take_append_of_le_length (Nat.min_le_left _ _)]
    rcases le_total after.length maxLineLen with h | h
    · rw [min_eq_left h, List.take_length, List.take_of_length_le h]
    · rw [min_eq_right h]
  have hwindow : (before.drop (before.length - maxLineLen)).length
      = min before.length maxLineLen := by
    rw [List.length_drop]
    omega
  rw [hdrop, List.take_append, hwindow, List.take_of_length_le (by omega), Nat.add_sub_cancel_left,
    htake]
  rfl

/-! ### What the window holds -/

theorem length_lineWindow (src : Bytes) (start : ℕ) : (lineWindow src start).length
    = min (lineBefore src start).length maxLineLen
      + min (lineAfter src start).length maxLineLen := by
  rw [lineWindow, List.length_append, List.length_drop, List.length_take]
  omega

/-- **The window is the whole line exactly when no more than `maxLineLen` bytes of
the line lie on either side of the position.** -/
theorem lineWindow_eq_sourceLine_iff (src : Bytes) (start : ℕ) :
    lineWindow src start = sourceLine src start ↔
      (lineBefore src start).length ≤ maxLineLen ∧ (lineAfter src start).length ≤ maxLineLen := by
  constructor
  · intro heq
    have hlen := congrArg List.length heq
    rw [length_lineWindow, sourceLine, List.length_append] at hlen
    omega
  · rintro ⟨hbefore, hafter⟩
    rw [lineWindow, sourceLine, Nat.sub_eq_zero_of_le hbefore, List.drop_zero,
      List.take_of_length_le hafter]

theorem newline_not_mem_lineBefore (src : Bytes) (start : ℕ) :
    Byte.newline ∉ lineBefore src start := by
  intro h
  simpa using List.mem_takeWhile_imp (List.mem_reverse.mp h)

theorem newline_not_mem_lineAfter (src : Bytes) (start : ℕ) :
    Byte.newline ∉ lineAfter src start := by
  intro h
  simpa using List.mem_takeWhile_imp h

theorem newline_not_mem_lineWindow (src : Bytes) (start : ℕ) :
    Byte.newline ∉ lineWindow src start := by
  rw [lineWindow, List.mem_append, not_or]
  exact ⟨fun h => newline_not_mem_lineBefore src start (List.mem_of_mem_drop h),
    fun h => newline_not_mem_lineAfter src start (List.mem_of_mem_take h)⟩

theorem mem_lineWindow {src : Bytes} {start : ℕ} {c : UInt8} (h : c ∈ lineWindow src start) :
    c ∈ src ∧ c ≠ Byte.newline := by
  refine ⟨?_, fun hc => newline_not_mem_lineWindow src start (hc ▸ h)⟩
  rw [lineWindow, List.mem_append] at h
  rcases h with h | h
  · have hsrc := (List.takeWhile_prefix _).subset (List.mem_reverse.mp (List.mem_of_mem_drop h))
    exact List.mem_of_mem_take (List.mem_reverse.mp hsrc)
  · exact List.mem_of_mem_drop ((List.takeWhile_prefix _).subset (List.mem_of_mem_take h))

/-! ### The line as a stretch of the source -/

/-- A stretch `[a, b)` of the source around a position, without a line feed. -/
structure IsStretch (src : Bytes) (start a b : ℕ) : Prop where
  le_start : a ≤ start
  start_le : start ≤ b
  le_length : b ≤ src.length
  no_newline : ∀ j, a ≤ j → j < b → src[j]? ≠ some Byte.newline

/-- The line around a position: the stretch that all others lie in. -/
def IsSourceLine (src : Bytes) (start a b : ℕ) : Prop :=
  IsStretch src start a b ∧ ∀ a' b', IsStretch src start a' b' → a ≤ a' ∧ b' ≤ b

theorem IsSourceLine.unique {src : Bytes} {start a b a' b' : ℕ} (h : IsSourceLine src start a b)
    (h' : IsSourceLine src start a' b') : a = a' ∧ b = b' := by
  obtain ⟨hle, hle'⟩ := h.2 a' b' h'.1
  obtain ⟨hge, hge'⟩ := h'.2 a b h.1
  exact ⟨hle.antisymm hge, hge'.antisymm hle'⟩

theorem le_length_takeWhile {α : Type*} {p : α → Bool} {l : List α} {n : ℕ} (hn : n ≤ l.length)
    (h : ∀ x ∈ l.take n, p x) : n ≤ (l.takeWhile p).length := by
  rw [← List.take_append_drop n l, List.takeWhile_append_of_pos h, List.length_append,
    List.length_take]
  omega

/-- No stretch starts before the line does. -/
theorem IsStretch.sub_le_length {src : Bytes} {start a b : ℕ} (h : IsStretch src start a b) :
    start - a ≤ (lineBefore src start).length := by
  have hstart := h.start_le.trans h.le_length
  have hback : start - (start - a) = a := Nat.sub_sub_self h.le_start
  rw [lineBefore, List.length_reverse]
  apply le_length_takeWhile (by simp; omega)
  intro x hx
  rw [List.take_reverse, List.mem_reverse, List.length_take, min_eq_left hstart, hback] at hx
  obtain ⟨i, hi⟩ := List.mem_iff_getElem?.mp hx
  rw [List.getElem?_drop, List.getElem?_take] at hi
  split at hi
  · next hlt =>
    have hne := h.no_newline (a + i) (Nat.le_add_right a i) (hlt.trans_le h.start_le)
    rw [hi, Ne, Option.some.injEq] at hne
    exact decide_eq_true hne
  · cases hi

/-- No stretch ends after the line does. -/
theorem IsStretch.le_add_length {src : Bytes} {start a b : ℕ} (h : IsStretch src start a b) :
    b - start ≤ (lineAfter src start).length := by
  have hlength := h.le_length
  rw [lineAfter]
  apply le_length_takeWhile (by rw [List.length_drop]; omega)
  intro x hx
  obtain ⟨i, hi⟩ := List.mem_iff_getElem?.mp hx
  rw [List.getElem?_take] at hi
  split at hi
  · next hlt =>
    have hle := h.le_start
    have hne := h.no_newline (start + i) (by omega) (by omega)
    rw [List.getElem?_drop] at hi
    rw [hi, Ne, Option.some.injEq] at hne
    exact decide_eq_true hne
  · cases hi

/-- The bytes before and after the position are the line around it. -/
theorem isSourceLine {src : Bytes} {start : ℕ} (hstart : start ≤ src.length) :
    IsSourceLine src start (start - (lineBefore src start).length)
      (start + (lineAfter src start).length) := by
  have hafter := length_lineAfter_le src start
  refine ⟨⟨Nat.sub_le _ _, Nat.le_add_right _ _, by omega, ?_⟩, ?_⟩
  · intro j hj hjb hnl
    obtain ⟨pre, post, hsrc, hlen⟩ := exists_eq_append hstart
    rw [hsrc, List.getElem?_append_right (by omega), ← List.append_assoc,
      List.getElem?_append_left (by rw [List.length_append]; omega)] at hnl
    rcases List.mem_append.mp (List.mem_of_getElem? hnl) with h | h
    · exact newline_not_mem_lineBefore src start h
    · exact newline_not_mem_lineAfter src start h
  · intro a b h
    have hbefore := h.sub_le_length
    have hbehind := h.le_add_length
    have hle := h.le_start
    have hge := h.start_le
    omega

theorem lineSlice_of_lineRange {src : Bytes} {start s len : ℕ}
    (h : lineRange src start = some (s, len)) :
    lineSlice src start = some ((src.drop s).take len) := by
  rw [lineSlice, h]
  rfl

/-- **`line_range` finds the line, clipped to the window.**  In a source of as many bytes
as a `uint32_t` has values, and so in every file of `maxFileSize` bytes, the slice
`[s, e)` is what of the line lies within `maxLineLen` bytes of the position; it holds no
line feed and the position is in it or at its end.  No read leaves the source, and
neither the differences nor, where it is taken, the sum wraps. -/
theorem lineRange_clipped_line {src : Bytes} {start : ℕ} (hstart : start ≤ src.length)
    (hsize : src.length ≤ 2 ^ 32) :
    (∃ a b, IsSourceLine src start a b) ∧ ∀ a b, IsSourceLine src start a b →
      ∃ s e, lineRange src start = some (s, e - s) ∧ s ≤ start ∧ start ≤ e ∧
        Set.Ico s e = Set.Ico a b ∩ Set.Ico (start - maxLineLen) (start + maxLineLen)
          ∩ Set.Ico 0 src.length ∧
        (∃ slice, lineSlice src start = some slice ∧ slice = (src.drop s).take (e - s) ∧
          Byte.newline ∉ slice) ∧
        sizeSub src.length start = src.length - start ∧
        (maxLineLen < src.length - start → uint32Add start maxLineLen = start + maxLineLen) ∧
        sizeSub e s = e - s := by
  have hbefore := length_lineBefore_le src start
  have hafter := length_lineAfter_le src start
  refine ⟨⟨_, _, isSourceLine hstart⟩, ?_⟩
  intro a b hline
  obtain ⟨rfl, rfl⟩ := hline.unique (isSourceLine hstart)
  have hlen : start + min (lineAfter src start).length maxLineLen
      - (start - min (lineBefore src start).length maxLineLen)
      = min (lineBefore src start).length maxLineLen
        + min (lineAfter src start).length maxLineLen := by omega
  have hrange := lineRange_eq hstart hsize
  rw [← hlen] at hrange
  have hslice := lineSlice_of_lineRange hrange
  refine ⟨_, _, hrange, Nat.sub_le _ _, Nat.le_add_right _ _, ?_, ⟨_, hslice, rfl, ?_⟩,
    sizeSub_eq hstart (by omega), fun hfar => uint32Add_eq (by omega), sizeSub_eq (by omega)
    (by omega)⟩
  · ext k
    simp only [Set.mem_inter_iff, Set.mem_Ico]
    omega
  · rw [Option.some.inj (hslice.symm.trans (lineSlice_eq hstart hsize))]
    exact newline_not_mem_lineWindow src start

/-- A line of 1400 bytes between two others. -/
def middleLine : Bytes := ascii "a\n" ++ (List.replicate 1400 0x62 ++ ascii "\nc")

theorem middleLine_isSourceLine : IsSourceLine middleLine 702 2 1402 := by
  have hstart : 702 ≤ middleLine.length := by decide +kernel
  have hline := isSourceLine hstart
  have hbefore : (lineBefore middleLine 702).length = 700 := by decide +kernel
  have hafter : (lineAfter middleLine 702).length = 700 := by decide +kernel
  rwa [hbefore, hafter] at hline

/-- A line too long on both sides is clipped on both. -/
theorem lineRange_clipped_line_middle : IsSourceLine middleLine 702 2 1402 ∧
    ∃ s e, lineRange middleLine 702 = some (s, e - s) ∧ Set.Ico s e = Set.Ico 190 1214 := by
  have hlen : middleLine.length = 1404 := by decide +kernel
  have hstart : 702 ≤ middleLine.length := by rw [hlen]; decide
  obtain ⟨-, hall⟩ := lineRange_clipped_line hstart (by rw [hlen]; decide)
  obtain ⟨s, e, hrange, -, -, hclip, -⟩ := hall 2 1402 middleLine_isSourceLine
  refine ⟨middleLine_isSourceLine, s, e, hrange, hclip.trans ?_⟩
  ext k
  simp only [hlen, maxLineLen, Set.mem_inter_iff, Set.mem_Ico]
  omega

end Tsag
