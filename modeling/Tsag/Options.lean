import Tsag.Lib.Getopt
import Tsag.Lib.Strtol

/-!
# The command line

`parse_options` reads the command line with `getopt` and the number of jobs with `strtol`;
`main` fills in what has not been given.

## Main definitions

* `Options`, `parseOptions` — `options.c`.
* `JobsText`, `CmdLine` — the texts for a number of jobs, and the command lines;
  `CmdLine.options` is what one asks for.
* `mainJobs` — the number of workers.

## Main results

* `readJobs_eq_some_iff` — the texts that are numbers of jobs.
* `parseOptions_ok_iff`, `parseOptions_help_iff` — what is accepted, and what asks for help.
* `exists_parseOptions_iff` — the options that can be asked for.
* `mainJobs_mem` — there is a worker at least.
-/

namespace Tsag

/-- `Options`. -/
structure Options where
  output : Option CStr
  /-- 0 = auto. -/
  jobs : ℤ
  paths : List CStr
  deriving DecidableEq

/-- How `parse_options` ends. -/
inductive ParseResult
  /-- It returns 0. -/
  | ok (o : Options)
  /-- It calls `exit(0)`. -/
  | help
  /-- It returns -1. -/
  | invalid
  deriving DecidableEq

/-- The options without an argument on the command line, `{0}`. -/
def Options.init : Options := ⟨none, 0, []⟩

/-- The option string of `parse_options`. -/
def optString : Bytes := ascii "o:j:h"

/-- The argument of `-j`. -/
def readJobs (optarg : CStr) : Option ℤ :=
  let v := strtol optarg.bytes
  if v.erange ∨ v.rest ≠ [] ∨ v.value < 1 then none else some v.value

/-- The loop of `parse_options`. -/
def parseLoop (permute : Bool) (o : Options) (s : GetoptState) : ParseResult :=
  match _h : getopt permute optString s with
  | (none, s') => .ok { o with paths := s'.operands ++ s'.args }
  | (some (.opt c optarg), s') =>
      if c = 0x6f then parseLoop permute { o with output := optarg } s' -- 'o'
      else if c = 0x6a then -- 'j'
        match optarg.bind readJobs with
        | none => .invalid
        | some v => parseLoop permute { o with jobs := v } s'
      else if c = 0x68 then .help -- 'h'
      else .invalid
  | (some (.bad _), _) => .invalid
termination_by s.size
decreasing_by all_goals exact getopt_size_lt _h

/-- `parse_options`, with the program's name left out of `argv`. -/
def parseOptions (permute : Bool) (args : List CStr) : ParseResult :=
  parseLoop permute .init ⟨[], args, []⟩

/-- The number of workers `main` creates, `online` being `sysconf(_SC_NPROCESSORS_ONLN)`. -/
def mainJobs (jobs online : ℤ) : ℤ := if jobs ≤ 0 then max (online - 2) 1 else jobs

section Loop

variable {permute : Bool} {o : Options} {s s' : GetoptState}

theorem parseLoop_end (h : getopt permute optString s = (none, s')) :
    parseLoop permute o s = .ok { o with paths := s'.operands ++ s'.args } := by
  rw [parseLoop]
  split
  · next heq => cases h.symm.trans heq; rfl
  · next heq => cases h.symm.trans heq
  · next heq => cases h.symm.trans heq

theorem parseLoop_opt {c : UInt8} {optarg : Option CStr}
    (h : getopt permute optString s = (some (.opt c optarg), s')) :
    parseLoop permute o s =
      if c = 0x6f then parseLoop permute { o with output := optarg } s'
      else if c = 0x6a then
        match optarg.bind readJobs with
        | none => .invalid
        | some v => parseLoop permute { o with jobs := v } s'
      else if c = 0x68 then .help
      else .invalid := by
  rw [parseLoop]
  split
  · next heq => cases h.symm.trans heq
  · next heq => cases h.symm.trans heq; rfl
  · next heq => cases h.symm.trans heq

theorem parseLoop_bad {c : UInt8} (h : getopt permute optString s = (some (.bad c), s')) :
    parseLoop permute o s = .invalid := by
  rw [parseLoop]
  split
  · next heq => cases h.symm.trans heq
  · next heq => cases h.symm.trans heq
  · rfl

/-- A word that `getopt` passes over. -/
theorem parseLoop_congr (h : getopt permute optString s = getopt permute optString s') :
    parseLoop permute o s = parseLoop permute o s' := by
  rcases hget : getopt permute optString s' with ⟨_ | ⟨c, optarg⟩ | c, s''⟩
  · rw [parseLoop_end (h.trans hget), parseLoop_end hget]
  · rw [parseLoop_opt (h.trans hget), parseLoop_opt hget]
  · rw [parseLoop_bad (h.trans hget), parseLoop_bad hget]

end Loop

/-! ### Numbers of jobs -/

/-- A text for a number of jobs: spaces, perhaps a plus sign, and digits. -/
@[ext] structure JobsText where
  spaces : Bytes
  plus : Bool
  digits : Bytes
  spaces_isspace : ∀ c ∈ spaces, isspace c = true
  digits_isdigit : ∀ c ∈ digits, isdigit c = true
  one_le : 1 ≤ decimal digits
  le_longMax : (decimal digits : ℤ) ≤ longMax

namespace JobsText

/-- The sign of a number of jobs. -/
def sign (t : JobsText) : Sign := if t.plus then .plus else .absent

/-- What is written. -/
def bytes (t : JobsText) : Bytes := t.spaces ++ (t.sign.bytes ++ t.digits)

theorem digits_ne_nil (t : JobsText) : t.digits ≠ [] := by
  intro h
  have hone := t.one_le
  rw [h] at hone
  exact absurd hone (by decide)

theorem no_nul (t : JobsText) : (0 : UInt8) ∉ t.bytes := by
  have hsign : (0 : UInt8) ∉ t.sign.bytes := by
    unfold sign
    cases t.plus <;> decide
  simp only [bytes, List.mem_append, not_or]
  exact ⟨fun h => absurd (t.spaces_isspace 0 h) (by decide), hsign,
    fun h => absurd (t.digits_isdigit 0 h) (by decide)⟩

/-- The text as an argument. -/
def text (t : JobsText) : CStr := ⟨t.bytes, t.no_nul⟩

/-- The text has a digit at least. -/
theorem bytes_ne_nil (t : JobsText) : t.bytes ≠ [] :=
  fun h => t.digits_ne_nil (List.append_eq_nil_iff.mp (List.append_eq_nil_iff.mp h).2).2

end JobsText

theorem clampLong_of_le {v : ℤ} (hmin : longMin ≤ v) (hmax : v ≤ longMax) :
    clampLong v = (v, false) := by
  rw [clampLong, if_neg (not_lt.mpr hmin), if_neg (not_lt.mpr hmax)]

/-- **What `-j` accepts**: no sign but a plus sign, nothing after the digits, and no number
that does not fit. -/
theorem readJobs_eq_some_iff {optarg : CStr} {n : ℤ} :
    readJobs optarg = some n ↔ ∃ t : JobsText, t.text = optarg ∧ (decimal t.digits : ℤ) = n := by
  constructor
  · intro h
    unfold readJobs at h
    simp only [Option.ite_none_left_eq_some, not_or, not_lt, ne_eq, not_not, Option.some.injEq]
      at h
    obtain ⟨⟨herange, hrest, hone⟩, hn⟩ := h
    have hne : optarg.bytes ≠ [] := by
      intro he
      rw [he] at hone
      exact absurd hone (by decide)
    obtain ⟨spaces, sign, digits, hspaces, hdigits, hdne, hbytes⟩ := strtol_rest_eq_nil hrest hne
    have hread := strtol_spec sign [] hspaces hdigits hdne rfl
    rw [List.append_nil, ← hbytes] at hread
    rw [hread] at herange hone hn
    -- a value out of range sets `errno`
    have hmin : longMin ≤ sign.apply (decimal digits) := not_lt.mp fun hlt => herange (by
      rw [clampLong, if_pos hlt])
    have hmax : sign.apply (decimal digits) ≤ longMax := not_lt.mp fun hlt => herange (by
      rw [clampLong, if_neg (not_lt.mpr hmin), if_pos hlt])
    rw [clampLong_of_le hmin hmax] at hone hn
    cases sign with
    | absent => exact ⟨⟨spaces, false, digits, hspaces, hdigits, Int.ofNat_le.mp hone, hmax⟩,
        CStr.ext hbytes.symm, hn⟩
    | plus => exact ⟨⟨spaces, true, digits, hspaces, hdigits, Int.ofNat_le.mp hone, hmax⟩,
        CStr.ext hbytes.symm, hn⟩
    | minus =>
      have hneg : 1 ≤ -(decimal digits : ℤ) := hone
      omega
  · rintro ⟨t, rfl, rfl⟩
    have hread := strtol_spec t.sign [] t.spaces_isspace t.digits_isdigit
      t.digits_ne_nil rfl
    have happly : t.sign.apply (decimal t.digits) = decimal t.digits := by
      unfold JobsText.sign
      cases t.plus <;> rfl
    have hone := t.one_le
    have hclamp : clampLong (decimal t.digits) = ((decimal t.digits : ℤ), false) :=
      clampLong_of_le (le_trans (by decide) (Int.natCast_nonneg _)) t.le_longMax
    rw [List.append_nil, happly, hclamp] at hread
    have htext : strtol t.text.bytes = ⟨decimal t.digits, [], false⟩ := hread
    rw [readJobs, htext, if_neg]
    simp only [Bool.false_eq_true, ne_eq, not_true_eq_false, false_or, not_lt]
    omega

/-! ### Command lines -/

/-- A word of options, from its option and what follows it. -/
def optionText (c : UInt8) (next : Bytes) : CStr := CStr.ofBuffer (Byte.dash :: c :: next)

/-- An option that takes an argument, as one word or as two. -/
def spellOption (c : UInt8) (attached : Bool) (optarg : CStr) : List CStr :=
  if attached then [optionText c optarg.bytes] else [optionText c [], optarg]

/-- What a command line is made of. -/
inductive Word
  | output (f : CStr) (attached : Bool) (hne : attached = true → f.bytes ≠ [])
  | jobs (t : JobsText) (attached : Bool)
  | path (p : CStr) (hp : p.optWord = none)

namespace Word

/-- How it is written. -/
def spell : Word → List CStr
  | output f attached _ => spellOption 0x6f attached f
  | jobs t attached => spellOption 0x6a attached t.text
  | path p _ => [p]

/-- What it sets. -/
def set (o : Options) : Word → Options
  | output f _ _ => { o with output := some f }
  | jobs t _ => { o with jobs := decimal t.digits }
  | path _ _ => o

/-- The paths it names. -/
def paths : Word → List CStr
  | output _ _ _ | jobs _ _ => []
  | path p _ => [p]

end Word

/-- How a command line ends. -/
inductive Tail
  | none
  /-- After `--` there are paths only. -/
  | dashes (rest : List CStr)
  /-- So there are after the first path, if that ends the options. -/
  | stop (first : CStr) (hfirst : first.optWord = .none) (rest : List CStr)

namespace Tail

def spell : Tail → List CStr
  | none => []
  | dashes rest => CStr.dashes :: rest
  | stop first _ rest => first :: rest

def paths : Tail → List CStr
  | none => []
  | dashes rest => rest
  | stop first _ rest => first :: rest

end Tail

/-- A command line. -/
structure CmdLine where
  words : List Word
  tail : Tail

namespace CmdLine

/-- How it is written. -/
def spell (line : CmdLine) : List CStr := line.words.flatMap Word.spell ++ line.tail.spell

/-- What it asks for: the last `-o` and the last `-j` count, and the paths in order. -/
def options (line : CmdLine) : Options :=
  { line.words.foldl Word.set .init with
    paths := line.words.flatMap Word.paths ++ line.tail.paths }

end CmdLine

/-- Whether a path may stand among the options. -/
def Word.Allowed (permute : Bool) (w : Word) : Prop := permute = false → w.paths = []

/-- Whether the first path ends the options. -/
def Tail.Allowed (permute : Bool) : Tail → Prop
  | none | dashes _ => True
  | stop _ _ _ => permute = false

section Words

variable {permute : Bool} {o : Options} {args operands : List CStr}

theorem optWord_optionText {c : UInt8} {next : Bytes} (hc : c ≠ 0) (h : (0 : UInt8) ∉ next) :
    (optionText c next).optWord = some (c, next) := by
  rw [CStr.optWord_eq_some_iff]
  apply CStr.bytes_ofBuffer_of_notMem
  simp only [List.mem_cons, not_or]
  exact ⟨by decide, hc.symm, h⟩

theorem optionText_of_optWord {a : CStr} {c : UInt8} {next : Bytes}
    (h : a.optWord = some (c, next)) : optionText c next = a := by
  rw [CStr.optWord_eq_some_iff] at h
  apply CStr.ext
  rw [optionText, ← h, CStr.bytes_ofBuffer_of_notMem a.no_nul]

/-- What `getopt` makes of an option with its argument. -/
theorem getopt_spellOption {c : UInt8} {attached : Bool} {f : CStr} (hc : c ≠ 0)
    (hdash : c ≠ Byte.dash) (hopt : optLookup optString c = some true)
    (hne : attached = true → f.bytes ≠ []) :
    getopt permute optString ⟨[], spellOption c attached f ++ args, operands⟩
      = (some (.opt c (some f)), ⟨[], args, operands⟩) := by
  cases attached with
  | false =>
    have hword : (optionText c []).optWord = some (c, []) :=
      optWord_optionText hc List.not_mem_nil
    exact getopt_detached hword (ne_dashes_of_optWord hword hdash) hopt
  | true =>
    have hword := optWord_optionText hc f.no_nul
    have hf : CStr.ofBuffer f.bytes = f := CStr.ext (CStr.bytes_ofBuffer_of_notMem f.no_nul)
    have hget : getopt permute optString ⟨[], optionText c f.bytes :: args, operands⟩
        = (some (.opt c (some (CStr.ofBuffer f.bytes))), ⟨[], args, operands⟩) :=
      getopt_attached hword (ne_dashes_of_optWord hword hdash) hopt (hne rfl)
    rwa [hf] at hget

/-- **What the loop does with one word.** -/
theorem parseLoop_word (w : Word) (hw : w.Allowed permute) :
    parseLoop permute o ⟨[], w.spell ++ args, operands⟩
      = parseLoop permute (w.set o) ⟨[], args, operands ++ w.paths⟩ := by
  cases w with
  | output f attached hne =>
    have hget : getopt permute optString ⟨[], spellOption 0x6f attached f ++ args, operands⟩
        = (some (.opt 0x6f (some f)), ⟨[], args, operands⟩) :=
      getopt_spellOption (by decide) (by decide) rfl hne
    rw [Word.spell, parseLoop_opt hget, Word.paths, List.append_nil]
    rfl
  | jobs t attached =>
    have hget : getopt permute optString ⟨[], spellOption 0x6a attached t.text ++ args, operands⟩
        = (some (.opt 0x6a (some t.text)), ⟨[], args, operands⟩) :=
      getopt_spellOption (by decide) (by decide) rfl fun _ => t.bytes_ne_nil
    have hread := readJobs_eq_some_iff.mpr ⟨t, rfl, rfl⟩
    rw [Word.spell, parseLoop_opt hget, Word.paths, List.append_nil, Option.bind_some, hread]
    rfl
  | path p hp =>
    cases permute with
    | false => cases hw rfl
    | true => exact parseLoop_congr (getopt_operand hp)

/-- What the loop does with many. -/
theorem parseLoop_words : ∀ {words : List Word} {o : Options} {operands : List CStr},
    (∀ w ∈ words, w.Allowed permute) →
      parseLoop permute o ⟨[], words.flatMap Word.spell ++ args, operands⟩
        = parseLoop permute (words.foldl Word.set o)
            ⟨[], args, operands ++ words.flatMap Word.paths⟩ := by
  intro words
  induction words with
  | nil => simp
  | cons w words ih =>
    intro o operands hall
    rw [List.flatMap_cons, List.append_assoc, parseLoop_word w (hall w List.mem_cons_self),
      ih fun w hw => hall w (List.mem_cons_of_mem _ hw), List.flatMap_cons, List.append_assoc,
      List.foldl_cons]

/-- What the loop does at the end. -/
theorem parseLoop_tail (tail : Tail) (h : tail.Allowed permute) :
    parseLoop permute o ⟨[], tail.spell, operands⟩
      = .ok { o with paths := operands ++ tail.paths } := by
  cases tail with
  | none => exact parseLoop_end getopt_nil
  | dashes rest => exact parseLoop_end getopt_dashes
  | stop first hfirst rest =>
    obtain rfl : permute = false := h
    exact parseLoop_end (getopt_stop hfirst)

/-! ### What is accepted -/

/-- The options of `parse_options`. -/
theorem optLookup_optString {c : UInt8} {takes : Bool} (h : optLookup optString c = some takes) :
    if takes then c = 0x6f ∨ c = 0x6a else c = 0x68 := by
  have hstring : optString = [0x6f, Byte.colon, 0x6a, Byte.colon, 0x68] := by decide
  by_cases hcolon : c = Byte.colon
  · rw [hcolon] at h
    exact absurd h (by rw [hstring]; decide +revert)
  by_cases ho : c = 0x6f
  · rw [ho] at h
    obtain rfl : true = takes := Option.some.inj h
    exact Or.inl ho
  by_cases hj : c = 0x6a
  · rw [hj] at h
    obtain rfl : true = takes := Option.some.inj h
    exact Or.inr hj
  by_cases hh : c = 0x68
  · rw [hh] at h
    obtain rfl : false = takes := Option.some.inj h
    exact hh
  · rw [hstring] at h
    simp [optLookup, hcolon, Ne.symm hcolon, Ne.symm ho, Ne.symm hj, Ne.symm hh] at h

/-- Where the loop ends. -/
inductive Ends (permute : Bool) : List CStr → Prop
  | tail (t : Tail) (ht : t.Allowed permute) : Ends permute t.spell
  | help {a : CStr} {next : Bytes} {rest : List CStr} (ha : a.optWord = some (0x68, next)) :
      Ends permute (a :: rest)
  | invalid {rest : List CStr}
      (h : ∀ o operands, parseLoop permute o ⟨[], rest, operands⟩ = .invalid) : Ends permute rest

/-- Words of a command line, up to where the loop ends. -/
def WordsThenEnd (permute : Bool) (args : List CStr) : Prop :=
  ∃ (words : List Word) (rest : List CStr), (∀ w ∈ words, w.Allowed permute) ∧
    words.flatMap Word.spell ++ rest = args ∧ Ends permute rest

theorem parseLoop_help {a : CStr} {next : Bytes} {rest : List CStr}
    (ha : a.optWord = some (0x68, next)) :
    parseLoop permute o ⟨[], a :: rest, operands⟩ = .help :=
  parseLoop_opt (getopt_short ha (ne_dashes_of_optWord ha (by decide)) rfl)

/-- An option that takes an argument, if it has one. -/
theorem exists_spellOption {a : CStr} {c : UInt8} {next : Bytes} (args : List CStr)
    (h : a.optWord = some (c, next)) :
    (next = [] ∧ args = []) ∨ ∃ f attached args', a :: args = spellOption c attached f ++ args' ∧
      args'.length ≤ args.length ∧ (attached = true → f.bytes ≠ []) := by
  have ha := optionText_of_optWord h
  by_cases hnext : next = []
  · subst hnext
    cases args with
    | nil => exact Or.inl ⟨rfl, rfl⟩
    | cons b args =>
      refine Or.inr ⟨b, false, args, ?_, Nat.le_succ _, fun h => absurd h (by decide)⟩
      rw [← ha]
      rfl
  · have hbytes := CStr.bytes_ofBuffer_of_notMem (CStr.no_nul_of_optWord h)
    refine Or.inr ⟨CStr.ofBuffer next, true, args, ?_, le_rfl, fun _ => by rwa [hbytes]⟩
    rw [spellOption, if_pos rfl, hbytes, ha]
    rfl

/-- **Every list of arguments** is words of a command line up to where the loop ends. -/
theorem wordsThenEnd (permute : Bool) (n : ℕ) : ∀ args : List CStr, args.length ≤ n →
    WordsThenEnd permute args := by
  induction n with
  | zero =>
    intro args hlen
    obtain rfl := List.eq_nil_of_length_eq_zero (Nat.le_zero.mp hlen)
    exact ⟨[], [], fun w hw => absurd hw List.not_mem_nil, rfl, .tail .none trivial⟩
  | succ n ih =>
    intro args hlen
    -- the loop goes on after a word
    have hword : ∀ (w : Word) (args' : List CStr), args = w.spell ++ args' → args'.length ≤ n →
        w.Allowed permute → WordsThenEnd permute args := by
      rintro w args' rfl hlen' hw
      obtain ⟨words, rest, hall, hspell, hends⟩ := ih args' hlen'
      refine ⟨w :: words, rest, ?_, ?_, hends⟩
      · simpa [hw] using hall
      · rw [List.flatMap_cons, List.append_assoc, hspell]
    -- or it ends at once
    have hend : Ends permute args → WordsThenEnd permute args :=
      fun h => ⟨[], args, fun w hw => absurd hw List.not_mem_nil, rfl, h⟩
    cases args with
    | nil => exact hend (.tail .none trivial)
    | cons a args =>
      have hlen' : args.length ≤ n := Nat.le_of_succ_le_succ hlen
      by_cases hdashes : a = CStr.dashes
      · subst hdashes
        exact hend (.tail (.dashes args) trivial)
      cases ha : a.optWord with
      | none =>
        cases permute with
        | true => exact hword (.path a ha) args rfl hlen' fun h => absurd h (by decide)
        | false => exact hend (.tail (.stop a ha args) rfl)
      | some w =>
        -- An option: what follows depends on its letter.
        obtain ⟨c, next⟩ := w
        cases hopt : optLookup optString c with
        | none =>
          exact hend (.invalid fun o operands => parseLoop_bad (getopt_unknown ha hdashes hopt))
        | some takes =>
          have hc := optLookup_optString hopt
          cases takes with
          | false =>
            -- The one option without an argument is `-h`.
            obtain rfl : c = 0x68 := hc
            exact hend (.help ha)
          | true =>
            obtain ⟨rfl, rfl⟩ | ⟨f, attached, args', hspell, hle, hne⟩ :=
              exists_spellOption args ha
            · exact hend (.invalid fun o operands =>
                parseLoop_bad (getopt_missing ha hdashes hopt))
            have hle' := hle.trans hlen'
            obtain rfl | rfl : c = 0x6f ∨ c = 0x6a := hc
            · exact hword (.output f attached hne) args' hspell hle' fun _ => rfl
            cases hread : readJobs f with
            | some v =>
              obtain ⟨t, rfl, -⟩ := readJobs_eq_some_iff.mp hread
              exact hword (.jobs t attached) args' hspell hle' fun _ => rfl
            | none =>
              refine hend (.invalid ?_)
              intro o operands
              rw [hspell, parseLoop_opt (getopt_spellOption (by decide) (by decide) hopt hne),
                Option.bind_some, hread]
              rfl

/-- What `parse_options` has accepted is a command line. -/
theorem exists_cmdLine {permute : Bool} {args : List CStr} {o : Options}
    (h : parseOptions permute args = .ok o) :
    ∃ line : CmdLine, (∀ w ∈ line.words, w.Allowed permute) ∧ line.tail.Allowed permute ∧
      line.spell = args ∧ line.options = o := by
  obtain ⟨words, rest, hall, rfl, hends⟩ := wordsThenEnd permute _ args le_rfl
  rw [parseOptions, parseLoop_words hall] at h
  cases hends with
  | tail t ht =>
    rw [parseLoop_tail t ht] at h
    exact ⟨⟨words, t⟩, hall, ht, rfl, ParseResult.ok.inj h⟩
  | help ha => cases (parseLoop_help ha).symm.trans h
  | invalid hrest => cases (hrest _ _).symm.trans h

/-- And a command line is accepted. -/
theorem parseOptions_spell {permute : Bool} {line : CmdLine}
    (hwords : ∀ w ∈ line.words, w.Allowed permute) (htail : line.tail.Allowed permute) :
    parseOptions permute line.spell = .ok line.options := by
  rw [parseOptions, CmdLine.spell, parseLoop_words hwords, parseLoop_tail _ htail]
  rfl

/-- **What `parse_options` accepts**, and what it makes of it: exactly the command lines. -/
theorem parseOptions_ok_iff {permute : Bool} {args : List CStr} {o : Options} :
    parseOptions permute args = .ok o ↔
      ∃ line : CmdLine, (∀ w ∈ line.words, w.Allowed permute) ∧ line.tail.Allowed permute ∧
        line.spell = args ∧ line.options = o := by
  refine ⟨exists_cmdLine, ?_⟩
  rintro ⟨line, hwords, htail, rfl, rfl⟩
  exact parseOptions_spell hwords htail

/-- A path may come first if operands are passed over. -/
example : parseOptions true (["src", "-j4", "-o", "-"].map CStr.lit)
    = .ok ⟨some (CStr.lit "-"), 4, [CStr.lit "src"]⟩ := by decide +kernel

/-- **When `parse_options` shows its help**: a word that begins with `-h` after words of a
command line, whatever follows. -/
theorem parseOptions_help_iff {permute : Bool} {args : List CStr} :
    parseOptions permute args = .help ↔
      ∃ (words : List Word) (next : Bytes) (a : CStr) (rest : List CStr),
        (∀ w ∈ words, w.Allowed permute) ∧ a.optWord = some (0x68, next) ∧
          args = words.flatMap Word.spell ++ a :: rest := by
  constructor
  · intro h
    obtain ⟨words, rest, hall, rfl, hends⟩ := wordsThenEnd permute _ args le_rfl
    rw [parseOptions, parseLoop_words hall] at h
    cases hends with
    | tail t ht => cases (parseLoop_tail t ht).symm.trans h
    | help ha => exact ⟨words, _, _, _, hall, ha, rfl⟩
    | invalid hrest => cases (hrest _ _).symm.trans h
  · rintro ⟨words, next, a, rest, hall, ha, rfl⟩
    rw [parseOptions, parseLoop_words hall, parseLoop_help ha]

end Words

/-! ### What can be given -/

/-- A number of jobs, by its digits. -/
def JobsText.ofNat (n : ℕ) (hone : 1 ≤ n) (hmax : (n : ℤ) ≤ longMax) : JobsText where
  spaces := []
  plus := false
  digits := digitBytes n
  spaces_isspace c hc := absurd hc List.not_mem_nil
  digits_isdigit _ hc := isdigit_of_mem_digitBytes hc
  one_le := by rwa [decimal_digitBytes]
  le_longMax := by rwa [decimal_digitBytes]

namespace Options

/-- The number of jobs is one that the command line can set. -/
def InRange (o : Options) : Prop := o.jobs = 0 ∨ (1 ≤ o.jobs ∧ o.jobs ≤ longMax)

/-- A command line for given options. -/
def cmdLineOf (o : Options) (h : o.InRange) : CmdLine where
  words := (o.output.elim [] fun f => [.output f false fun h => absurd h (by decide)]) ++
    if hjobs : 1 ≤ o.jobs then
      [.jobs (.ofNat o.jobs.toNat (by omega) (by unfold InRange at h; omega)) false]
    else []
  tail := .dashes o.paths

theorem cmdLineOf_options (o : Options) (h : o.InRange) : (o.cmdLineOf h).options = o := by
  obtain ⟨output, jobs, paths⟩ := o
  unfold cmdLineOf CmdLine.options
  by_cases hjobs : 1 ≤ jobs
  · have hdec : (decimal (digitBytes jobs.toNat) : ℤ) = jobs := by
      rw [decimal_digitBytes]
      exact Int.toNat_of_nonneg (by omega)
    cases output <;> simp [hjobs, Word.set, Word.paths, JobsText.ofNat, hdec, Tail.paths, init]
  · have hzero : jobs = 0 := by
      rcases h with h | h
      · exact h
      · exact absurd h.1 hjobs
    cases output <;> simp [hzero, Word.set, Word.paths, Tail.paths, init]

theorem InRange.set {o : Options} (h : o.InRange) (w : Word) : (w.set o).InRange := by
  cases w with
  | output f attached hne => exact h
  | jobs t attached => exact Or.inr ⟨Int.ofNat_le.mpr t.one_le, t.le_longMax⟩
  | path p hp => exact h

theorem InRange.foldl_set : ∀ {words : List Word} {o : Options}, o.InRange →
    (words.foldl Word.set o).InRange := by
  intro words
  induction words with
  | nil => exact id
  | cons w words ih => exact fun h => ih (h.set w)

end Options

/-- The number of jobs is in range when it has been read. -/
theorem inRange_of_ok {permute : Bool} {args : List CStr} {o : Options}
    (h : parseOptions permute args = .ok o) : o.InRange := by
  obtain ⟨line, -, -, -, rfl⟩ := exists_cmdLine h
  exact Options.InRange.foldl_set (o := .init) (Or.inl rfl)

/-- **What can be asked for**: every output, any paths, and the numbers of jobs from 1 to
`LONG_MAX` or none. -/
theorem exists_parseOptions_iff {permute : Bool} {o : Options} :
    (∃ args, parseOptions permute args = .ok o) ↔ o.InRange := by
  constructor
  · rintro ⟨args, h⟩
    exact inRange_of_ok h
  · intro h
    have hspell : (∀ w ∈ (o.cmdLineOf h).words, w.Allowed permute) →
        parseOptions permute (o.cmdLineOf h).spell = .ok (o.cmdLineOf h).options :=
      fun hwords => parseOptions_spell hwords trivial
    rw [o.cmdLineOf_options h] at hspell
    refine ⟨(o.cmdLineOf h).spell, hspell ?_⟩
    -- there are no paths before `--`
    intro w hw _
    rcases List.mem_append.mp hw with hw | hw
    · cases hout : o.output with
      | none => rw [hout] at hw; exact absurd hw List.not_mem_nil
      | some f =>
        rw [hout] at hw
        rw [List.mem_singleton.mp hw]
        rfl
    · by_cases hjobs : 1 ≤ o.jobs
      · rw [dif_pos hjobs] at hw
        rw [List.mem_singleton.mp hw]
        rfl
      · rw [dif_neg hjobs] at hw
        exact absurd hw List.not_mem_nil

/-- **There is a worker at least**, and no more than fit a `long`. -/
theorem mainJobs_mem {permute : Bool} {args : List CStr} {o : Options} {online : ℤ}
    (h : parseOptions permute args = .ok o) (honline : online ≤ longMax) :
    1 ≤ mainJobs o.jobs online ∧ mainJobs o.jobs online ≤ longMax := by
  have hrange := inRange_of_ok h
  have hmax : (1 : ℤ) ≤ longMax := by decide
  unfold Options.InRange at hrange
  unfold mainJobs
  by_cases hjobs : o.jobs ≤ 0
  · rw [if_pos hjobs]
    exact ⟨le_max_right .., max_le (by omega) hmax⟩
  · rw [if_neg hjobs]
    omega

end Tsag
