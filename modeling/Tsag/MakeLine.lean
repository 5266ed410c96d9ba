import Tsag.Escape
import Tsag.Lang
import Tsag.LineRange

/-!
# The line of a tag

A match of a language's query names a byte range of the source and a kind;
`make_line` formats it, with the path and the pattern, into the line of a tag.

## Main definitions

* `Capture`, `MatchInfo`, `extractMatch` — a match, and what is made of its captures.
* `MatchInfo.OfSource` — the matches a source can yield.
* `formatLine`, `makeLine` — the line of a match.
* `Decodes` — the fields of a line can be read back from it.

## Main results

* `extractMatch_valid` — the name is a slice of the source, the kind one of `kindNames`.
* `makeLine_of_makesLine`, `makeLine_of_not_makesLine` — when `make_line` returns a line.
* `makeLine_eq_some` — what the line is.
* `makeLine_locates_iff` — which patterns un-escape to the whole source line.
* `makeLine_decodes_iff` — which lines can be read back.
-/

namespace Tsag

/-! ### Matches -/

/-- What follows `kind.` in the capture names of `queries.h`. -/
def kindNames : List String :=
  ["alias", "class", "constant", "enum", "enumerator", "field", "function", "generator",
    "getter", "interface", "macro", "member", "method", "namespace", "property", "setter",
    "struct", "type", "typedef", "union", "variable"]

/-- The capture names of `queries.h`. -/
def captureNames : List CStr :=
  CStr.lit "name" :: kindNames.map fun kind => CStr.lit ("kind." ++ kind)

/-- A capture of a match: the name of the capture and the bytes of its node. -/
structure Capture where
  name : CStr
  start : ℕ
  stop : ℕ

/-- What tree-sitter promises of a capture: its name is one of the query's, its
node inside the source. -/
structure Capture.Ok (source : Bytes) (cap : Capture) : Prop where
  name_mem : cap.name ∈ captureNames
  start_le : cap.start ≤ cap.stop
  stop_le : cap.stop ≤ source.length

/-- `MatchInfo`; the name is the `name_len` bytes at `name`. -/
structure MatchInfo where
  name : Bytes
  kind : CStr
  start : ℕ
  stop : ℕ

/-- One turn of `extract_match`'s loop. -/
def extractStep (source : Bytes) (m : MatchInfo) (cap : Capture) : MatchInfo :=
  if cap.name.bytes = ascii "name" then
    { m with
      name := (source.drop cap.start).take (cap.stop - cap.start)
      start := cap.start
      stop := cap.stop }
  else if 5 < cap.name.bytes.length ∧ cap.name.bytes.take 5 = ascii "kind." then
    { m with kind := CStr.ofBuffer (cap.name.bytes.drop 5) }
  else m

/-- `extract_match`. -/
def extractMatch (source : Bytes) (captures : List Capture) : Option MatchInfo :=
  let m := captures.foldl (extractStep source) ⟨[], CStr.lit "", 0, 0⟩
  if m.name.length = 0 ∨ m.kind.bytes = [] then none else some m

/-- A match that `extract_match` makes of captures of this source. -/
def MatchInfo.OfSource (source : Bytes) (m : MatchInfo) : Prop :=
  ∃ captures : List Capture, (∀ cap ∈ captures, cap.Ok source) ∧
    extractMatch source captures = some m

/-- The name of the match is its slice of the source, its kind one of `kindNames`. -/
structure MatchInfo.Valid (source : Bytes) (m : MatchInfo) : Prop where
  name_eq : m.name = (source.drop m.start).take (m.stop - m.start)
  start_le : m.start ≤ m.stop
  stop_le : m.stop ≤ source.length
  kind_mem : m.kind ∈ kindNames.map CStr.lit

theorem captureNames_kind : ∀ cap ∈ captureNames,
    5 < cap.bytes.length ∧ cap.bytes.take 5 = ascii "kind." →
    CStr.ofBuffer (cap.bytes.drop 5) ∈ kindNames.map CStr.lit := by decide

/-- **A match is a slice of the source with a kind of the queries.** -/
theorem extractMatch_valid {source : Bytes} {m : MatchInfo} (h : m.OfSource source) :
    m.Valid source := by
  obtain ⟨captures, hok, hm⟩ := h
  have hloop : ∀ (captures : List Capture) (m : MatchInfo), (∀ cap ∈ captures, cap.Ok source) →
      m.name = (source.drop m.start).take (m.stop - m.start) → m.start ≤ m.stop →
      m.stop ≤ source.length → (m.kind = CStr.lit "" ∨ m.kind ∈ kindNames.map CStr.lit) →
      ((captures.foldl (extractStep source) m).kind = CStr.lit "" ∨
        (captures.foldl (extractStep source) m).Valid source) := by
    intro captures
    induction captures with
    | nil =>
      intro m _ hname hstart hstop hkind
      exact hkind.imp_right fun hkind => ⟨hname, hstart, hstop, hkind⟩
    | cons cap captures ih =>
      intro m hok hname hstart hstop hkind
      have hcap := hok cap (List.mem_cons_self ..)
      have hrest := fun c hc => hok c (List.mem_cons_of_mem _ hc)
      rw [List.foldl_cons, extractStep]
      split
      · exact ih _ hrest rfl hcap.start_le hcap.stop_le hkind
      · split
        · next h =>
          exact ih _ hrest hname hstart hstop (Or.inr (captureNames_kind _ hcap.name_mem h))
        · exact ih _ hrest hname hstart hstop hkind
  rw [extractMatch] at hm
  split at hm
  · cases hm
  · next hcomplete =>
    obtain rfl := Option.some.inj hm
    rw [not_or] at hcomplete
    rcases hloop captures ⟨[], CStr.lit "", 0, 0⟩ hok (by simp) le_rfl (Nat.zero_le _)
      (Or.inl rfl) with hnone | hvalid
    · rw [hnone] at hcomplete
      exact absurd rfl hcomplete.2
    · exact hvalid

/-- In a file that is read, the slice of a match is its window. -/
theorem MatchInfo.Valid.lineSlice_eq {source : Bytes} {m : MatchInfo} (hm : m.Valid source)
    (hsize : source.length ≤ maxFileSize) :
    lineSlice source m.start = some (lineWindow source m.start) :=
  Tsag.lineSlice_eq (hm.start_le.trans hm.stop_le) (hsize.trans maxFileSize_le)

/-- No kind holds a TAB or a line feed. -/
theorem kindNames_bytes : ∀ kind ∈ kindNames.map CStr.lit,
    Byte.tab ∉ kind.bytes ∧ Byte.newline ∉ kind.bytes := by decide

/-- The match of a variable's declaration. -/
def intX : MatchInfo := ⟨ascii "x", CStr.lit "variable", 4, 5⟩

theorem intX_ofSource (rest : Bytes) : intX.OfSource (ascii "int x" ++ rest) := by
  refine ⟨[⟨CStr.lit "name", 4, 5⟩, ⟨CStr.lit "kind.variable", 0, 5⟩], ?_, rfl⟩
  have hlen : 5 ≤ (ascii "int x" ++ rest).length := by
    rw [List.length_append]
    exact Nat.le_add_right 5 _
  intro cap hcap
  rw [List.mem_pair] at hcap
  rcases hcap with rfl | rfl
  · exact ⟨by decide, by decide, hlen⟩
  · exact ⟨by decide, by decide, hlen⟩

/-! ### Formatting -/

/-- `name_is_printable`. -/
def nameIsPrintable (name : Bytes) : Bool := name.all isprint

/-- What stands in a line for the pattern. -/
def patternField (pattern : Bytes) : Bytes := ascii "/^" ++ pattern ++ ascii "$/;\""

/-- What `make_line`'s format makes of its arguments. -/
def formatLine (name path pattern kind : Bytes) : Bytes :=
  name ++ [Byte.tab] ++ path ++ [Byte.tab] ++ patternField pattern ++ [Byte.tab] ++ kind
    ++ [Byte.newline]

/-- What `snprintf` leaves in a buffer. -/
def snprintf (out text : Bytes) : CStr := CStr.ofBuffer (text.take (out.length - 1))

/-- `make_line`, `some none` when it returns `NULL`.  A name is no longer than its
source, so its length fits in the `int` it is cast to. -/
def makeLine (mallocPattern mallocLine : Malloc) (m : MatchInfo) (source : Bytes)
    (filepath : CStr) : Option (Option CStr) :=
  if ¬ nameIsPrintable m.name then some none
  else do
    let line ← lineSlice source m.start
    match ← escapePattern mallocPattern line with
    | none => return none
    | some pattern =>
        let text := formatLine (CStr.ofBuffer m.name).bytes filepath.bytes pattern.bytes
          m.kind.bytes
        -- a text too long for an `int` makes `n` negative
        if intMax < text.length then return none
        else match mallocLine.alloc (text.length + 1) with
          | none => return none
          | some out => return some (snprintf out text)

theorem not_mem_of_nameIsPrintable {name : Bytes} (h : nameIsPrintable name = true) {c : UInt8}
    (hc : isprint c = false) : c ∉ name := by
  intro hmem
  rw [nameIsPrintable, List.all_eq_true] at h
  rw [h c hmem] at hc
  cases hc

theorem mem_formatLine {name path pattern kind : Bytes} {c : UInt8}
    (hc : c ≠ Byte.tab ∧ c ≠ Byte.newline ∧ c ∉ ascii "/^" ∧ c ∉ ascii "$/;\"") :
    c ∈ formatLine name path pattern kind ↔ c ∈ name ∨ c ∈ path ∨ c ∈ pattern ∨ c ∈ kind := by
  obtain ⟨htab, hnl, hopen, hclose⟩ := hc
  simp [formatLine, patternField, htab, hnl, hopen, hclose]

theorem formatLine_pattern_inj {name path pattern pattern' kind : Bytes}
    (h : formatLine name path pattern kind = formatLine name path pattern' kind) :
    pattern = pattern' := by
  simpa [formatLine, patternField] using h

section Result

variable {mallocPattern mallocLine : Malloc} {m : MatchInfo} {source : Bytes} {filepath : CStr}

/-- The pattern of a match, as `%s` reads it. -/
def patternOf (source : Bytes) (m : MatchInfo) : CStr :=
  CStr.ofBuffer (escapeBytes (lineWindow source m.start))

/-- The line of a match. -/
def lineText (source : Bytes) (m : MatchInfo) (filepath : CStr) : Bytes :=
  formatLine m.name filepath.bytes (patternOf source m).bytes m.kind.bytes

/-- What has to go well for `make_line` to return a line. -/
structure MakesLine (mallocPattern mallocLine : Malloc) (m : MatchInfo) (source : Bytes)
    (filepath : CStr) : Prop where
  printable : nameIsPrintable m.name = true
  pattern : (mallocPattern.alloc (escapeWidth (lineWindow source m.start) + 1)).isSome
  fits : (lineText source m filepath).length ≤ intMax
  line : (mallocLine.alloc ((lineText source m filepath).length + 1)).isSome

theorem nul_not_mem_lineText (hprint : nameIsPrintable m.name = true) :
    (0 : UInt8) ∉ lineText source m filepath := by
  rw [lineText, mem_formatLine (by decide)]
  rintro (h | h | h | h)
  · exact not_mem_of_nameIsPrintable hprint rfl h
  · exact filepath.no_nul h
  · exact (patternOf source m).no_nul h
  · exact m.kind.no_nul h

/-- `make_line` returns the line of the match when everything goes well. -/
theorem makeLine_of_makesLine (hm : m.Valid source) (hsize : source.length ≤ maxFileSize)
    (h : MakesLine mallocPattern mallocLine m source filepath) :
    ∃ line, makeLine mallocPattern mallocLine m source filepath = some (some line) ∧
      line.bytes = lineText source m filepath := by
  have hname : (CStr.ofBuffer m.name).bytes = m.name :=
    CStr.bytes_ofBuffer_of_notMem (not_mem_of_nameIsPrintable h.printable rfl)
  obtain ⟨dst, hdst⟩ := Option.isSome_iff_exists.mp h.pattern
  obtain ⟨out, hout⟩ := Option.isSome_iff_exists.mp h.line
  have hlen := mallocLine.length_alloc _ _ hout
  refine ⟨snprintf out (lineText source m filepath), ?_, ?_⟩
  · rw [makeLine, if_neg (not_not.mpr h.printable), hm.lineSlice_eq hsize]
    simp only [Option.bind_eq_bind, Option.bind_some, escapePattern_eq, hdst, Option.map_some,
      hname]
    show (if intMax < (lineText source m filepath).length then _ else _) = _
    rw [if_neg (Nat.not_lt.mpr h.fits)]
    show (match mallocLine.alloc ((lineText source m filepath).length + 1) with
      | none => _ | some out => _) = _
    rw [hout]
    rfl
  · rw [snprintf, hlen, Nat.add_sub_cancel, List.take_length]
    exact CStr.bytes_ofBuffer_of_notMem (nul_not_mem_lineText h.printable)

/-- Otherwise it returns `NULL`. -/
theorem makeLine_of_not_makesLine (hm : m.Valid source) (hsize : source.length ≤ maxFileSize)
    (h : ¬ MakesLine mallocPattern mallocLine m source filepath) :
    makeLine mallocPattern mallocLine m source filepath = some none := by
  unfold makeLine
  by_cases hprint : nameIsPrintable m.name = true
  · have hname : (CStr.ofBuffer m.name).bytes = m.name :=
      CStr.bytes_ofBuffer_of_notMem (not_mem_of_nameIsPrintable hprint rfl)
    rw [if_neg (not_not.mpr hprint), hm.lineSlice_eq hsize]
    simp only [Option.bind_eq_bind, Option.bind_some, escapePattern_eq, hname]
    cases hdst : mallocPattern.alloc (escapeWidth (lineWindow source m.start) + 1) with
    | none => rfl
    | some dst =>
      show (if intMax < (lineText source m filepath).length then _ else _) = _
      split
      · rfl
      · next hfits =>
        cases hout : mallocLine.alloc ((lineText source m filepath).length + 1) with
        | none =>
          show (match mallocLine.alloc ((lineText source m filepath).length + 1) with
            | none => _ | some out => _) = _
          rw [hout]
          rfl
        | some out =>
          exact absurd ⟨hprint, by simp [hdst], Nat.not_lt.mp hfits, by simp [hout]⟩ h
  · rw [if_pos hprint]

/-- **The line `make_line` returns**, if it returns one, is that of its match. -/
theorem makeLine_eq_some {line : CStr} (hm : m.Valid source) (hsize : source.length ≤ maxFileSize)
    (h : makeLine mallocPattern mallocLine m source filepath = some (some line)) :
    nameIsPrintable m.name = true ∧ line.bytes = lineText source m filepath := by
  by_cases hmakes : MakesLine mallocPattern mallocLine m source filepath
  · obtain ⟨line', hline', hbytes⟩ := makeLine_of_makesLine hm hsize hmakes
    obtain rfl : line' = line := Option.some.inj (Option.some.inj (hline'.symm.trans h))
    exact ⟨hmakes.printable, hbytes⟩
  · rw [makeLine_of_not_makesLine hm hsize hmakes] at h
    cases h

theorem exists_line_intX (rest : Bytes) (filepath : CStr)
    (hsize : (ascii "int x" ++ rest).length ≤ maxFileSize)
    (hfits : (lineText (ascii "int x" ++ rest) intX filepath).length ≤ intMax) :
    ∃ line, makeLine Malloc.zeros Malloc.zeros intX (ascii "int x" ++ rest) filepath
        = some (some line) ∧ line.bytes = lineText (ascii "int x" ++ rest) intX filepath :=
  makeLine_of_makesLine (extractMatch_valid (intX_ofSource rest)) hsize ⟨rfl, rfl, hfits, rfl⟩

/-! ### The pattern and the source line -/

/-- A pattern un-escapes to the window up to its first carriage return, unless a NUL
cuts it short. -/
theorem unescape_patternOf (hnul : (0 : UInt8) ∉ lineWindow source m.start)
    (hcr : Byte.cr ∉ lineWindow source m.start) :
    unescapePattern (patternOf source m).bytes = lineWindow source m.start := by
  have hesc : (0 : UInt8) ∉ escapeBytes (lineWindow source m.start) := fun h =>
    hnul ((List.takeWhile_prefix _).subset ((mem_escapeBytes rfl _).mp h).2)
  rw [patternOf, CStr.bytes_ofBuffer_of_notMem hesc, unescape_escapeBytes,
    List.takeWhile_eq_self_iff]
  intro c hc
  have hnl : c ≠ Byte.newline := (mem_lineWindow hc).2
  have hne : c ≠ Byte.cr := fun he => hcr (he ▸ hc)
  simp [endsLine, hnl, hne]

/-- **The pattern of a tag un-escapes to the whole source line exactly when no more
than `maxLineLen` bytes of the line lie on either side of the start of the name.** -/
theorem makeLine_locates_iff {line : CStr} (hm : m.OfSource source)
    (hsize : source.length ≤ maxFileSize) (hnul : (0 : UInt8) ∉ source) (hcr : Byte.cr ∉ source)
    (h : makeLine mallocPattern mallocLine m source filepath = some (some line)) :
    ∃ pattern, line.bytes = formatLine m.name filepath.bytes pattern m.kind.bytes ∧
      (unescapePattern pattern = sourceLine source m.start ↔
        (lineBefore source m.start).length ≤ maxLineLen ∧
          (lineAfter source m.start).length ≤ maxLineLen) := by
  obtain ⟨-, hbytes⟩ := makeLine_eq_some (extractMatch_valid hm) hsize h
  refine ⟨(patternOf source m).bytes, hbytes, ?_⟩
  rw [unescape_patternOf (fun h => hnul (mem_lineWindow h).1) fun h => hcr (mem_lineWindow h).1]
  exact lineWindow_eq_sourceLine_iff source m.start

theorem makeLine_locates_iff_int_x : ∃ line pattern,
    makeLine Malloc.zeros Malloc.zeros intX (ascii "int x" ++ ascii ";\n") (CStr.lit "a.c")
      = some (some line) ∧
    line.bytes = formatLine (ascii "x") (ascii "a.c") pattern (ascii "variable") ∧
    unescapePattern pattern = ascii "int x;" := by
  obtain ⟨line, hline, -⟩ := exists_line_intX (ascii ";\n") (CStr.lit "a.c") (by decide) (by decide)
  obtain ⟨pattern, hbytes, hiff⟩ :=
    makeLine_locates_iff (intX_ofSource _) (by decide) (by decide) (by decide) hline
  exact ⟨line, pattern, hline, hbytes, hiff.mpr (by decide)⟩

/-- A source of one line of 610 bytes, with a name at its start. -/
def longSource : Bytes :=
  ascii "int x" ++ (ascii " = " ++ List.replicate 600 0x31 ++ ascii ";\n")

/-- Nothing keeps the source from being scanned, and the pattern of its tag is not
its line. -/
theorem makeLine_misses_end_of_long_line :
    intX.OfSource longSource ∧ longSource.length ≤ maxFileSize ∧ (0 : UInt8) ∉ longSource ∧
      Byte.cr ∉ longSource ∧ hasLongLine longSource = false ∧
    ∃ line, makeLine Malloc.zeros Malloc.zeros intX longSource (CStr.lit "a.c")
      = some (some line) ∧
    ∀ pattern, line.bytes = formatLine (ascii "x") (ascii "a.c") pattern (ascii "variable") →
      unescapePattern pattern ≠ sourceLine longSource intX.start := by
  have hsize : longSource.length ≤ maxFileSize := by decide +kernel
  refine ⟨intX_ofSource _, hsize, by decide +kernel, by decide +kernel, by decide +kernel, ?_⟩
  obtain ⟨line, hline, hbytes⟩ := exists_line_intX _ (CStr.lit "a.c") hsize (by decide +kernel)
  refine ⟨line, hline, ?_⟩
  intro pattern hpattern
  rw [← formatLine_pattern_inj (hbytes.symm.trans hpattern),
    unescape_patternOf (by decide +kernel) (by decide +kernel)]
  decide +kernel

/-! ### Reading a line back -/

/-- The fields of a tag can be read back from its line. -/
structure Decodes (line : CStr) (name path pattern kind : Bytes) : Prop where
  /-- The line feed at the end is the only one. -/
  newlines : line.bytes.count Byte.newline = 1
  tabs : line.bytes.count Byte.tab = 3
  fields : ∃ body, line.bytes = body ++ [Byte.newline] ∧
    body.splitOn Byte.tab = [name, path, patternField pattern, kind]

/-- Its fields, and TABs between them. -/
theorem lineText_eq : lineText source m filepath = [Byte.tab].intercalate
    [m.name, filepath.bytes, patternField (patternOf source m).bytes, m.kind.bytes]
      ++ [Byte.newline] := by
  simp [lineText, formatLine, List.intercalate]

variable (source m) in
theorem tab_not_mem_patternOf : Byte.tab ∉ (patternOf source m).bytes := fun h =>
  tab_not_mem_escapeBytes _ (CStr.mem_of_mem_ofBuffer h)

variable (source m) in
theorem newline_not_mem_patternOf : Byte.newline ∉ (patternOf source m).bytes := fun h =>
  endsLine_not_mem_escapeBytes rfl _ (CStr.mem_of_mem_ofBuffer h)

/-- The line has three TABs, and those of its path. -/
theorem count_tab_lineText (hm : m.Valid source) (hprint : nameIsPrintable m.name = true) :
    (lineText source m filepath).count Byte.tab = filepath.bytes.count Byte.tab + 3 := by
  have hname := List.count_eq_zero_of_not_mem
    (not_mem_of_nameIsPrintable hprint (c := Byte.tab) rfl)
  have hpattern := List.count_eq_zero_of_not_mem (tab_not_mem_patternOf m source)
  have hkind := List.count_eq_zero_of_not_mem (kindNames_bytes _ hm.kind_mem).1
  simp only [lineText, formatLine, patternField, List.count_append, hname, hpattern, hkind]
  have hopen : (ascii "/^").count Byte.tab = 0 := by decide
  have hclose : (ascii "$/;\"").count Byte.tab = 0 := by decide
  have htab : [Byte.tab].count Byte.tab = 1 := by decide
  have hnl : [Byte.newline].count Byte.tab = 0 := by decide
  omega

/-- The line has one line feed, and those of its path. -/
theorem count_newline_lineText (hm : m.Valid source) (hprint : nameIsPrintable m.name = true) :
    (lineText source m filepath).count Byte.newline = filepath.bytes.count Byte.newline + 1 := by
  have hname := List.count_eq_zero_of_not_mem
    (not_mem_of_nameIsPrintable hprint (c := Byte.newline) rfl)
  have hpattern := List.count_eq_zero_of_not_mem (newline_not_mem_patternOf m source)
  have hkind := List.count_eq_zero_of_not_mem (kindNames_bytes _ hm.kind_mem).2
  simp only [lineText, formatLine, patternField, List.count_append, hname, hpattern, hkind]
  have hopen : (ascii "/^").count Byte.newline = 0 := by decide
  have hclose : (ascii "$/;\"").count Byte.newline = 0 := by decide
  have htab : [Byte.tab].count Byte.newline = 0 := by decide
  have hnl : [Byte.newline].count Byte.newline = 1 := by decide
  omega

/-- Without a TAB in the path, the line splits at its TABs into its fields. -/
theorem splitOn_lineText (hm : m.Valid source) (hprint : nameIsPrintable m.name = true)
    (hpath : Byte.tab ∉ filepath.bytes) {body : Bytes}
    (hbody : lineText source m filepath = body ++ [Byte.newline]) :
    body.splitOn Byte.tab =
      [m.name, filepath.bytes, patternField (patternOf source m).bytes, m.kind.bytes] := by
  rw [lineText_eq] at hbody
  rw [← List.append_cancel_right hbody]
  refine List.splitOn_intercalate _ ?_ (List.cons_ne_nil _ _)
  intro field hfield
  simp only [List.mem_cons, List.not_mem_nil, or_false] at hfield
  rcases hfield with rfl | rfl | rfl | rfl
  · exact not_mem_of_nameIsPrintable hprint rfl
  · exact hpath
  · have hopen : Byte.tab ∉ ascii "/^" := by decide
    have hclose : Byte.tab ∉ ascii "$/;\"" := by decide
    have hpattern := tab_not_mem_patternOf m source
    simp [patternField, hopen, hclose, hpattern]
  · exact (kindNames_bytes _ hm.kind_mem).1

/-- **The fields of a tag can be read back from its line exactly when its path holds
no TAB and no line feed, and the source line holds no NUL before its end.** -/
theorem makeLine_decodes_iff {line : CStr} (hm : m.OfSource source)
    (hsize : source.length ≤ maxFileSize)
    (h : makeLine mallocPattern mallocLine m source filepath = some (some line)) :
    ∃ slice, lineSlice source m.start = some slice ∧
      (Decodes line m.name filepath.bytes (escapeBytes slice) m.kind.bytes ↔
        Byte.tab ∉ filepath.bytes ∧ Byte.newline ∉ filepath.bytes ∧
          (0 : UInt8) ∉ slice.takeWhile fun c => !endsLine c) := by
  have hvalid := extractMatch_valid hm
  obtain ⟨hprint, hbytes⟩ := makeLine_eq_some hvalid hsize h
  refine ⟨_, hvalid.lineSlice_eq hsize, ?_⟩
  -- the TABs and line feeds beyond those of the format are the path's
  have htabs : line.bytes.count Byte.tab = filepath.bytes.count Byte.tab + 3 := by
    rw [hbytes]
    exact count_tab_lineText hvalid hprint
  have hnewlines : line.bytes.count Byte.newline = filepath.bytes.count Byte.newline + 1 := by
    rw [hbytes]
    exact count_newline_lineText hvalid hprint
  have hnul : (0 : UInt8) ∉ (lineWindow source m.start).takeWhile (fun c => !endsLine c) ↔
      (0 : UInt8) ∉ escapeBytes (lineWindow source m.start) := by
    rw [mem_escapeBytes rfl]
    simp [Byte.tab]
  rw [hnul]
  -- so the count of both says whether the path has any
  constructor
  · intro hdec
    have hpath : Byte.tab ∉ filepath.bytes :=
      List.count_eq_zero.mp (by have htabs' := hdec.tabs; omega)
    refine ⟨hpath, List.count_eq_zero.mp (by have hnewlines' := hdec.newlines; omega), ?_⟩
    -- a NUL would have cut the pattern field short
    obtain ⟨body, hbody, hfields⟩ := hdec.fields
    rw [splitOn_lineText hvalid hprint hpath (hbytes.symm.trans hbody)] at hfields
    have hpattern : patternField (patternOf source m).bytes
        = patternField (escapeBytes (lineWindow source m.start)) := by simpa using hfields
    rw [patternField, patternField] at hpattern
    rw [← List.append_cancel_left (List.append_cancel_right hpattern)]
    exact (patternOf source m).no_nul
  · rintro ⟨htab, hnl, hnone⟩
    refine ⟨?_, ?_, ?_⟩
    · rw [hnewlines, List.count_eq_zero.mpr hnl]
    · rw [htabs, List.count_eq_zero.mpr htab]
    · refine ⟨_, hbytes.trans lineText_eq, ?_⟩
      rw [splitOn_lineText hvalid hprint htab lineText_eq, patternOf,
        CStr.bytes_ofBuffer_of_notMem hnone]

theorem makeLine_decodes_iff_int_x : ∃ line slice,
    makeLine Malloc.zeros Malloc.zeros intX (ascii "int x" ++ ascii "; // \t") (CStr.lit "a.c")
      = some (some line) ∧
    lineSlice (ascii "int x" ++ ascii "; // \t") intX.start = some slice ∧
    Decodes line (ascii "x") (ascii "a.c") (escapeBytes slice) (ascii "variable") := by
  have hsize : (ascii "int x" ++ ascii "; // \t").length ≤ maxFileSize := by decide
  obtain ⟨line, hline, -⟩ := exists_line_intX _ (CStr.lit "a.c") hsize (by decide)
  obtain ⟨slice, hslice, hiff⟩ := makeLine_decodes_iff (intX_ofSource _) hsize hline
  refine ⟨line, slice, hline, hslice, hiff.mpr ⟨by decide, by decide, ?_⟩⟩
  have hvalid := extractMatch_valid (intX_ofSource (ascii "; // \t"))
  obtain rfl := Option.some.inj ((hvalid.lineSlice_eq hsize).symm.trans hslice)
  decide

/-- A file whose name holds a TAB can be put on the work queue, and the line of its
tag has one TAB too many. -/
theorem makeLine_of_tab_in_path :
    (findExtension (CStr.lit "a\tb.c")).bind extToLang = some (CStr.lit "c") ∧
    ∃ line, makeLine Malloc.zeros Malloc.zeros intX (ascii "int x" ++ ascii ";\n")
        (CStr.lit "a\tb.c") = some (some line) ∧
      ∀ pattern, ¬ Decodes line (ascii "x") (ascii "a\tb.c") pattern (ascii "variable") := by
  refine ⟨by decide, ?_⟩
  obtain ⟨line, hline, hbytes⟩ := exists_line_intX (ascii ";\n") (CStr.lit "a\tb.c") (by decide)
    (by decide)
  refine ⟨line, hline, ?_⟩
  intro pattern hdec
  have htabs := hdec.tabs
  rw [hbytes, count_tab_lineText (extractMatch_valid (intX_ofSource _)) rfl] at htabs
  exact absurd htabs (by decide)

end Result

end Tsag
