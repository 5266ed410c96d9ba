import Tsag.Escape
import Tsag.LineRange
import Tsag.ParseFile

/-!
# Reading a file

`parse_file_lines` reads a file whole before it parses it: regular files of at most
`MAX_FILE_SIZE` bytes, and of those only the ones without a line longer than
`MAX_SRC_LINE_LEN`.

## Main definitions

* `Stat`, `FileCalls` — what the calls of `read_file` on a path come to.
* `readFile` — the buffer filled and the bytes read.
* `Readable` — everything that has to go well for a file to be read.
* `readSource` — the file whose text is the bytes before the terminator.

## Main results

* `readFile_of_readable` — the buffer holds what was read, and ends it with a NUL.
* `hasLongLine_iff` — the loop finds exactly the texts with a line that is too long.
-/

namespace Tsag

/-- `SIZE_MAX`. -/
def sizeMax : ℕ := 2 ^ 64 - 1

/-- `struct stat`, as far as `read_file` looks at it. -/
structure Stat where
  /-- `S_ISREG(st_mode)`. -/
  isReg : Bool
  /-- `st_size`. -/
  size : ℤ

/-- The test of `read_file`: no regular file, or one of a size it does not take. -/
def Stat.Refused (sb : Stat) : Prop :=
  ¬ sb.isReg ∨ sb.size < 0 ∨ maxFileSize < sb.size.toNat ∨ sizeMax - 1 < sb.size.toNat

instance (sb : Stat) : Decidable sb.Refused :=
  inferInstanceAs (Decidable (_ ∨ _ ∨ _ ∨ _))

/-- Only regular files pass it, and only up to `MAX_FILE_SIZE`. -/
theorem Stat.not_refused_iff (sb : Stat) :
    ¬ sb.Refused ↔ ∃ n : ℕ, n ≤ maxFileSize ∧ sb = ⟨true, n⟩ := by
  have hmax : maxFileSize ≤ sizeMax - 1 := by decide
  obtain ⟨isReg, size⟩ := sb
  simp only [Stat.Refused, not_or, not_not, not_lt, Stat.mk.injEq]
  constructor
  · rintro ⟨hreg, hsize, hle, -⟩
    exact ⟨size.toNat, hle, hreg, (Int.toNat_of_nonneg hsize).symm⟩
  · rintro ⟨n, hle, hreg, rfl⟩
    simp only [Int.toNat_natCast]
    exact ⟨hreg, Int.natCast_nonneg n, hle, hle.trans hmax⟩

/-- What the calls of `read_file` on a path come to. -/
structure FileCalls (path : CStr) where
  /-- `open` returns a descriptor. -/
  opens : Bool
  fstat : Option Stat
  /-- `fdopen` returns a stream. -/
  fdopen : Bool
  malloc : Malloc
  /-- What `fread` reads when it is asked for so many bytes. -/
  fread : ℕ → Bytes
  /-- `open` takes no path of `PATH_MAX` bytes. -/
  path_lt : opens = true → path.bytes.length < pathMax
  length_fread_le : ∀ n, (fread n).length ≤ n

/-- `read_file`: the buffer and `*out_len`, `some none` when it returns `NULL`. -/
def readFile {path : CStr} (calls : FileCalls path) : Option (Option (Bytes × ℕ)) :=
  if ¬ calls.opens then some none
  else
    match calls.fstat with
    | none => some none
    | some sb =>
        if sb.Refused then some none
        else if ¬ calls.fdopen then some none
        else
          let n := sb.size.toNat
          match calls.malloc.alloc (n + 1) with
          | none => some none
          | some buf => do
              let got := (calls.fread n).length
              let (buf, _) ← store 0 (calls.fread n ++ buf.drop got, got)
              return some (buf, got)

section Read

variable {path : CStr} {calls : FileCalls path}

/-- Everything that has to go well for a file of `n` bytes to be read. -/
structure Readable (calls : FileCalls path) (n : ℕ) : Prop where
  opens : calls.opens = true
  fstat : calls.fstat = some ⟨true, n⟩
  size_le : n ≤ maxFileSize
  fdopen : calls.fdopen = true
  malloc : (calls.malloc.alloc (n + 1)).isSome

theorem Readable.unique {n n' : ℕ} (h : Readable calls n) (h' : Readable calls n') : n = n' := by
  have hstat := h.fstat.symm.trans h'.fstat
  simpa using hstat

/-- **A file that is readable is read**: the buffer starts with what `fread` has read,
and a NUL inside the buffer ends it. -/
theorem readFile_of_readable {n : ℕ} (h : Readable calls n) :
    ∃ rest, readFile calls = some (some (calls.fread n ++ 0 :: rest, (calls.fread n).length)) := by
  obtain ⟨buf, hbuf⟩ := Option.isSome_iff_exists.mp h.malloc
  have hlen := calls.malloc.length_alloc _ _ hbuf
  have hgot := calls.length_fread_le n
  obtain ⟨c, rest, hrest⟩ : ∃ c rest, buf.drop (calls.fread n).length = c :: rest := by
    apply List.exists_cons_of_ne_nil
    rw [Ne, List.drop_eq_nil_iff]
    omega
  have hpass : ¬ (⟨true, n⟩ : Stat).Refused :=
    (Stat.not_refused_iff _).mpr ⟨n, h.size_le, rfl⟩
  refine ⟨rest, ?_⟩
  simp only [readFile, h.opens, h.fstat, h.fdopen, if_neg hpass, not_true_eq_false, if_false,
    Int.toNat_natCast, hbuf, hrest, store]
  simp

/-- Otherwise `read_file` returns `NULL`. -/
theorem readFile_of_not_readable (h : ∀ n, ¬ Readable calls n) : readFile calls = some none := by
  unfold readFile
  split
  · rfl
  · next hopens =>
    cases hstat : calls.fstat with
    | none => rfl
    | some sb =>
      simp only
      split
      · rfl
      · next hpass =>
        obtain ⟨n, hle, rfl⟩ := (Stat.not_refused_iff sb).mp hpass
        split
        · rfl
        · next hfdopen =>
          rw [not_not] at hopens hfdopen
          simp only [Int.toNat_natCast]
          cases hbuf : calls.malloc.alloc (n + 1) with
          | none => rfl
          | some buf => exact absurd ⟨hopens, hstat, hle, hfdopen, by rw [hbuf]; rfl⟩ (h n)

/-- The text of what has been read is of a size that is taken, and its path one that
`open` takes. -/
theorem sourceFile_of_readFile {source : Bytes} {srcLen : ℕ}
    (h : readFile calls = some (some (source, srcLen))) :
    path.bytes.length < pathMax ∧ (source.take srcLen).length ≤ maxFileSize := by
  by_cases hread : ∃ n, Readable calls n
  · obtain ⟨n, hn⟩ := hread
    obtain ⟨rest, heq⟩ := readFile_of_readable hn
    obtain ⟨rfl, rfl⟩ : _ = source ∧ _ = srcLen := by simpa [heq] using h
    refine ⟨calls.path_lt hn.opens, ?_⟩
    rw [List.take_left]
    exact (calls.length_fread_le n).trans hn.size_le
  · rw [readFile_of_not_readable (not_exists.mp hread)] at h
    cases h

/-- What `parse_file_lines` makes of the buffer: the file whose text is the bytes before
the terminator. -/
def readSource (calls : FileCalls path) : Option (Option SourceFile) :=
  match h : readFile calls with
  | none => none
  | some none => some none
  | some (some (source, srcLen)) =>
      some (some ⟨path, source.take srcLen, (sourceFile_of_readFile h).1,
        (sourceFile_of_readFile h).2⟩)

theorem readSource_of_readable {n : ℕ} (h : Readable calls n) :
    ∃ file, readSource calls = some (some file) ∧ file.path = path ∧
      file.text = calls.fread n := by
  obtain ⟨rest, heq⟩ := readFile_of_readable h
  unfold readSource
  split
  · next hnone =>
    rw [heq] at hnone
    cases hnone
  · next hnull =>
    rw [heq] at hnull
    cases hnull
  · next source srcLen hread =>
    obtain ⟨rfl, rfl⟩ : _ = source ∧ _ = srcLen := by simpa [heq] using hread
    exact ⟨_, rfl, rfl, List.take_left⟩

theorem readSource_of_not_readable (h : ∀ n, ¬ Readable calls n) :
    readSource calls = some none := by
  have heq := readFile_of_not_readable h
  unfold readSource
  split
  · next hnone =>
    rw [heq] at hnone
    cases hnone
  · rfl
  · next hread =>
    rw [heq] at hread
    cases hread

/-- A file is its path and its text. -/
theorem SourceFile.ext {file file' : SourceFile} (hpath : file.path = file'.path)
    (htext : file.text = file'.text) : file = file' := by
  obtain ⟨path, text, _, _⟩ := file
  obtain ⟨path', text', _, _⟩ := file'
  obtain rfl : path = path' := hpath
  obtain rfl : text = text' := htext
  rfl

end Read

/-! ### Lines that are too long -/

/-- The loop, `run` bytes into a line that is not too long so far. -/
theorem hasLongLineFrom_iff (src : Bytes) : ∀ {run : ℕ}, run ≤ maxSrcLineLen →
    ∀ {line : Bytes} {lines : List Bytes}, src.splitOn Byte.newline = line :: lines →
      (hasLongLineFrom run src = true ↔
        maxSrcLineLen < run + line.length ∨ ∃ l ∈ lines, maxSrcLineLen < l.length) := by
  induction src with
  | nil =>
    intro run hrun line lines hsplit
    obtain ⟨rfl, rfl⟩ : [] = line ∧ [] = lines := by simpa using hsplit
    simp [hasLongLineFrom, hrun]
  | cons c src ih =>
    intro run hrun line lines hsplit
    obtain ⟨line', lines', hrest⟩ :=
      List.exists_cons_of_ne_nil (List.splitOn_ne_nil Byte.newline src)
    rw [List.splitOn_cons_eq_if_modifyHead, hrest] at hsplit
    rw [hasLongLineFrom]
    by_cases hc : c = Byte.newline
    · -- the line ends here
      obtain ⟨rfl, rfl⟩ : [] = line ∧ line' :: lines' = lines := by simpa [hc] using hsplit
      rw [if_pos hc, ih (Nat.zero_le _) hrest]
      simp [hrun]
    · obtain ⟨rfl, rfl⟩ : c :: line' = line ∧ lines' = lines := by simpa [hc] using hsplit
      rw [if_neg hc, List.length_cons]
      split
      · exact iff_of_true rfl (Or.inl (by omega))
      · rw [ih (by omega) hrest, Nat.add_assoc, Nat.add_comm 1]

/-- **`has_long_line` finds exactly the texts with a line of more than
`MAX_SRC_LINE_LEN` bytes.** -/
theorem hasLongLine_iff (src : Bytes) :
    hasLongLine src = true ↔ ∃ line ∈ src.splitOn Byte.newline, maxSrcLineLen < line.length := by
  obtain ⟨line, lines, hsplit⟩ := List.exists_cons_of_ne_nil (List.splitOn_ne_nil Byte.newline src)
  rw [hasLongLine, hasLongLineFrom_iff src (Nat.zero_le _) hsplit, hsplit]
  simp

end Tsag
